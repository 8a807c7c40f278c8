import Bluejay.Lisp.Grammar
import Bluejay.Lisp.Programs

/-!
# Files are compiled correctly

* `read1_withFunctions` : the reader neither looks at the functions that are compiled, nor changes
  them.
* `loadLoop_defined` : the loop of `load` on a text of definitions.
* `load_serves` : once `load` has loaded a file of definitions, whatever white space, comments and
  reader macro characters they are written with, calls of the functions do what they say.
-/

namespace Bluejay

namespace Lisp

/-! ### What the reader leaves alone -/

def World.withFunctions (env : List Function) (programs : List Code) (w : World) : World :=
  { w with env := env, programs := programs }

def Reading.withFunctions (env : List Function) (programs : List Code) (s : Reading) : Reading :=
  { s with world := s.world.withFunctions env programs }

/-- What `f` does has nothing to do with functions. -/
def Blind {α : Type} (f : Reading → Option (α × Reading)) : Prop :=
  ∀ env programs s, f (s.withFunctions env programs) =
    (f s).map (Prod.map id (Reading.withFunctions env programs))

section Blind

variable {R : Runtime} {f g : Reading → ReadResult} {n : ℕ}

theorem blind_allocate (o : Obj) (k : ℕ) : Blind fun s => Reading.allocate R s o k :=
  fun _ _ _ => rfl

theorem Blind.okayIf (hf : Blind f) (hg : Blind g) : Blind (okayIf f g) := by
  intro env programs s
  unfold Lisp.okayIf
  rw [hf env programs s]
  cases f s with
  | none => rfl
  | some r =>
    obtain ⟨e | v, s'⟩ := r
    · show (if e.safeState then g (s'.withFunctions env programs) else _) =
        Option.map _ (if e.safeState then g s' else some (.error e, s'))
      rw [hg env programs s']
      split_ifs <;> rfl
    · rfl

theorem blind_readsym : Blind (readsym R) := by
  intro env programs s
  unfold readsym
  show (skipws false s.input >>= _) = _
  cases skipws false s.input with
  | none => rfl
  | some input =>
    cases input with
    | nil => rfl
    | cons c cs =>
      simp only [Option.bind_eq_bind, Option.bind_some]
      split_ifs <;> rfl

theorem blind_readstr : Blind (readstr R) := by
  intro env programs s
  unfold readstr
  show (skipws false s.input >>= _) = _
  cases skipws false s.input with
  | none => rfl
  | some input =>
    cases input with
    | nil => rfl
    | cons c cs =>
      simp only [Option.bind_eq_bind, Option.bind_some]
      split_ifs
      · cases readstrLoop false cs <;> rfl
      · rfl

theorem blind_readint : Blind readint := by
  intro env programs s
  unfold readint
  show (skipws false s.input >>= _) = _
  cases skipws false s.input with
  | none => rfl
  | some input =>
    simp only [Option.bind_eq_bind, Option.bind_some]
    split_ifs <;> rfl

theorem Blind.readnLoop (hf : Blind f) {first : Word} {last : Option Word} :
    Blind (readnLoop R f n first last) := by
  induction n generalizing first last with
  | zero => exact fun _ _ _ => rfl
  | succ n ih =>
    intro env programs s
    unfold Lisp.readnLoop
    rw [hf env programs s]
    cases f s with
    | none => rfl
    | some r =>
      obtain ⟨e | v, s'⟩ := r
      · rfl
      · cases last with
        | none => exact ih env programs ⟨s'.input, (s'.world.allocate R (.cons v nil) consTag).2⟩
        | some last =>
          exact ih env programs ⟨s'.input, (s'.world.allocate R (.cons v nil) consTag).2.setCdr last
            (s'.world.allocate R (.cons v nil) consTag).1⟩

theorem Blind.readlist (hf : Blind f) : Blind (readlist R f n) := by
  intro env programs s
  unfold Lisp.readlist
  show (skipws false s.input >>= _) = _
  cases skipws false s.input with
  | none => rfl
  | some input =>
    simp only [Option.bind_eq_bind, Option.bind_some]
    split_ifs
    · have hn : readn R f n (Reading.withFunctions env programs ⟨input.tail, s.world⟩) = _ :=
        hf.readnLoop env programs ⟨input.tail, s.world⟩
      rw [show (⟨input.tail, (s.withFunctions env programs).world⟩ : Reading) =
        Reading.withFunctions env programs ⟨input.tail, s.world⟩ from rfl, hn]
      show _ = (Option.bind (Lisp.readnLoop R f n nil none ⟨input.tail, s.world⟩) _).map _
      cases Lisp.readnLoop R f n nil none ⟨input.tail, s.world⟩ with
      | none => rfl
      | some r =>
        show Option.bind (skipws false r.2.input) _ = (Option.bind (skipws false r.2.input) _).map _
        cases skipws false r.2.input with
        | none => rfl
        | some input' =>
          simp only [Option.bind_some]
          split_ifs <;> rfl
    · rfl

theorem Blind.readquote (hf : Blind f) : Blind (readquote R f) := by
  intro env programs s
  unfold Lisp.readquote
  show (skipws false s.input >>= _) = _
  cases skipws false s.input with
  | none => rfl
  | some input =>
    cases input with
    | nil => rfl
    | cons c cs =>
      simp only [Option.bind_eq_bind, Option.bind_some]
      split_ifs
      · rw [show (⟨(quoteChar c cs).2, (s.withFunctions env programs).world⟩ : Reading) =
          Reading.withFunctions env programs ⟨(quoteChar c cs).2, s.world⟩ from rfl,
          hf env programs]
        cases f ⟨(quoteChar c cs).2, s.world⟩ with
        | none => rfl
        | some r =>
          obtain ⟨e | v, s'⟩ := r
          · rfl
          · simp only [Option.map_some, Option.bind_some, Prod.map, id]
            cases readerMacro (quoteChar c cs).1 <;> rfl
      · rfl

/-- Reading has nothing to do with functions. -/
theorem read1_withFunctions : Blind (read1 R n) := by
  induction n with
  | zero => exact fun _ _ _ => rfl
  | succ n ih =>
    have hexpected : Blind expected := fun _ _ _ => rfl
    intro env programs s
    rw [read1]
    exact ih.readquote.okayIf (blind_readsym.okayIf (blind_readstr.okayIf (blind_readint.okayIf
      (ih.readlist.okayIf hexpected)))) env programs s

end Blind

/-! ### Files -/

section Files

variable {R : Runtime} {text rest : List Char} {e : Sexp} {es : List Sexp} {d : Definition}
  {ds : List Definition} {p p₀ : Process}

/-- In a heap that has grown to `G` since, the tree was read, and is the form of the definition. -/
def Heap.WasRead (G : Heap) (e : Sexp) (d : Definition) : Prop :=
  ∃ (H : Heap) (v : Word), H.Extends G ∧ Represents H v e ∧ H.Defun v d

/-- Reading a form, whatever functions there are. -/
theorem read1_form (R : Runtime) (h : Derives false text e rest) (w : World) : ∃ (N : ℕ) (v : Word)
    (w' : World), w.heap.Extends w'.heap ∧ Represents w'.heap v e ∧ ∀ n ≥ N, ∀ env programs,
      read1 R n ⟨text, w.withFunctions env programs⟩ =
        some (.ok v, ⟨rest, w'.withFunctions env programs⟩) := by
  obtain ⟨N, hN⟩ := read1_of_derives R h
  obtain ⟨v, w', hread, hext, hrep⟩ := hN N le_rfl w
  refine ⟨N, v, w', hext, represents_of_except hrep, fun n hn env programs => ?_⟩
  have hmore := read1_mono R hn _ _ hread
  have hblind := read1_withFunctions (R := R) (n := n) env programs ⟨text, w⟩
  rw [hmore] at hblind
  exact hblind

/-- Where no form follows, the loop of `load` ends. -/
theorem loadLoop_blank (R : Runtime) (h : Blank text) : ∃ N, ∀ n ≥ N, ∀ k files tl p,
    loadLoop (.ofRuntime R k files) tl (n + 1) text p = some (⟨true, []⟩, p) := by
  have hform : Formless (text ++ []) [] := .blocked h blocked_nil
  rw [List.append_nil] at hform
  obtain ⟨N, hN⟩ := safe_of_formless R hform
  refine ⟨N, fun n hn k files tl p => ?_⟩
  obtain ⟨err, hsafe, hread⟩ := hN n hn p.world
  have hread' : read1 (Host.ofRuntime R k files).runtime n ⟨text, p.world⟩ = _ := hread
  rw [loadLoop, hread']
  simp only [Option.bind_eq_bind, Option.bind_some, hsafe]
  rfl

/-- The loop of `load` on a text of definitions. -/
theorem loadLoop_defined (hfile : Contents text es) (hes : List.Forall₂ Sexp.IsDefun es ds)
    (R : Runtime) (w : World) : ∃ (ds' : List Definition) (G : Heap) (N : ℕ),
      ds'.map Definition.shape = ds.map Definition.shape ∧ w.heap.Extends G ∧
      List.Forall₂ G.WasRead es ds' ∧
      ∀ n ≥ N, ∀ m ≥ N, ∀ (p₀ p : Process) (env : List Function) (programs : List Code)
        (done : List Definition) files load path, p.world = w.withFunctions env programs →
        AllCompilable env ds → p₀.Defined done p → ∃ l p',
          loadLoop (.ofRuntime R n files) (compileTl (.ofRuntime R n files) load path n) m text p =
            some (⟨true, l⟩, p') ∧
          p₀.Defined (ds'.reverse ++ done) p' ∧ p'.world.heap = G := by
  induction hfile generalizing ds w with
  | ended h =>
    cases hes
    obtain ⟨N, hN⟩ := loadLoop_blank R h
    refine ⟨[], w.heap, N + 1, rfl, .refl _, .nil, ?_⟩
    rintro n - m hm p₀ p env programs done files load path hp - hdone
    obtain ⟨m, rfl⟩ := Nat.exists_eq_succ_of_ne_zero (Nat.ne_zero_of_lt hm)
    exact ⟨[], p, hN m (by omega) n files _ p, hdone, by rw [hp]; rfl⟩
  | @form text rest e es h _ ih =>
    cases hes with
    | @cons _ d _ ds hd hes =>
      obtain ⟨N₁, v, w₁, hext, hrep, hread⟩ := read1_form R h w
      obtain ⟨d', hdefun, hshape⟩ := exists_defun hrep hd
      obtain ⟨N₂, hN₂⟩ := compileTl_defun hdefun R
      obtain ⟨ds', G, N₃, hshapes, hG, hwas, hN₃⟩ := ih hes w₁
      refine ⟨d' :: ds', G, max N₁ (max N₂ N₃) + 1, ?_, hext.trans hG,
        .cons ⟨w₁.heap, v, hG, hrep, hdefun⟩ hwas, ?_⟩
      · rw [List.map_cons, List.map_cons, hshape, hshapes]
      · intro n hn m hm p₀ p env programs done files load path hp hds hdone
        simp only [ge_iff_le, Nat.add_one_le_iff, max_lt_iff] at hn hm
        obtain ⟨n, rfl⟩ := Nat.exists_eq_succ_of_ne_zero (Nat.ne_zero_of_lt hn.1)
        obtain ⟨m, rfl⟩ := Nat.exists_eq_succ_of_ne_zero (Nat.ne_zero_of_lt hm.1)
        have hname : d'.name = d.name := (congrArg Definition.name hshape :)
        have hargs : d'.args = d.args := (congrArg Definition.args hshape :)
        -- one form is read, and compiled
        obtain ⟨code, htl, hserves⟩ := hN₂ (n + 1) (by omega)
          { p with world := w₁.withFunctions env programs } path rfl
          ((compilable_shape env d').1 (hshape ▸ (compilable_shape env d).2 hds.1))
        have hread₁ : read1 R m ⟨text, p.world⟩ =
            some (.ok v, ⟨rest, w₁.withFunctions env programs⟩) := by
          rw [hp]
          exact hread m (by omega) env programs
        have hdone₁ : p₀.Defined done { p with world := w₁.withFunctions env programs } :=
          hdone.congr (by rw [hp]; rfl) (by rw [hp]; rfl)
        -- and the others are
        obtain ⟨l, p', hloop, hdefined, hheap⟩ := hN₃ (n + 1) (by omega) m (by omega) p₀
          (Process.addFunction { p with world := w₁.withFunctions env programs } d'.name d'.args
            .function code) _ _ (d' :: done) files load path rfl
          (by rw [hname, hargs]; exact hds.2 _) (hdone₁.addFunction hserves)
        refine ⟨text :: l, p', ?_, by rwa [List.reverse_cons, List.append_assoc], hheap⟩
        have hread' : read1 (Host.ofRuntime R (n + 1) files).runtime m ⟨text, p.world⟩ = _ := hread₁
        rw [loadLoop, hread']
        simp only [Option.bind_eq_bind, Option.bind_some]
        rw [htl files load n]
        simp only [Option.bind_some]
        rw [hloop]
        rfl

/-- Once `load` has loaded a file of definitions, they have been compiled. -/
theorem load_defined (files : String → Option (List Char)) (path : String) (p : Process)
    (hopen : files path = some text) (hfile : Contents text es)
    (hes : List.Forall₂ Sexp.IsDefun es ds) (R : Runtime) (hds : AllCompilable p.world.env ds) :
    ∃ (ds' : List Definition) (G : Heap) (N : ℕ),
      ds'.map Definition.shape = ds.map Definition.shape ∧ p.world.heap.Extends G ∧
      List.Forall₂ G.WasRead es ds' ∧ ∀ n ≥ N, ∃ l p',
        load (.ofRuntime R n files) (n + 1) path p = some (⟨true, l⟩, p') ∧
        p'.world.heap = G ∧ p'.world.currentPool = p.world.currentPool ∧
        p.Defined ds'.reverse p' := by
  obtain ⟨ds', G, N, hshapes, hG, hwas, hN⟩ := loadLoop_defined hfile hes R p.entered.world
  refine ⟨ds', G, N, hshapes, hG, hwas, fun n hn => ?_⟩
  obtain ⟨l, p', hloop, hdefined, hheap⟩ := hN n hn n hn p.entered p.entered p.world.env
    p.world.programs [] files
    (fun path p => (load (.ofRuntime R n files) n path p).map fun r => (r.1.ok, r.2)) path rfl hds
    (.start _)
  rw [List.append_nil] at hdefined
  refine ⟨l, p'.popPool p.world.currentPool, ?_, hheap, rfl, ⟨hdefined.finds, hdefined.provides⟩⟩
  have hexists : (Host.ofRuntime R n files).fileExists path = true := by
    show (files path).isSome = true
    rw [hopen]
    rfl
  have hfopen : (Host.ofRuntime R n files).fopen path = some text := hopen
  rw [load, hexists, hfopen]
  exact Option.bind_eq_some_iff.2 ⟨(⟨true, l⟩, p'), hloop, rfl⟩

end Files

/-- `(defun cadr (val) (car (cdr val)))` and `(defun caddr (val) (cadr (cdr val)))`, on two
lines. -/
def accessorText : List Char := accessorTrees.flatMap fun e => e.text ++ ['\n']

example : accessorText =
    "(defun cadr (val) (car (cdr val)))\n(defun caddr (val) (cadr (cdr val)))\n".toList := by
  decide

theorem accessorText_contents : Contents accessorText accessorTrees := by
  have hname : ∀ {s : String} {c : Char} {cs : List Char}, s.toList = c :: cs →
      issymstart c = true → cs.all issym = true → c ∉ ['\'', ',', '#'] →
      (Sexp.symbol s).Printable := fun hs hc hcs hquote =>
    ⟨_, _, hs, hc, List.all_eq_true.1 hcs, hquote⟩
  have hsymbol : ∀ s ∈ ["defun", "cadr", "caddr", "car", "cdr", "val"],
      (Sexp.symbol s).Printable := by
    simp only [List.forall_mem_cons, List.not_mem_nil, false_imp_iff, implies_true, and_true]
    refine ⟨hname rfl ?_ ?_ ?_, hname rfl ?_ ?_ ?_, hname rfl ?_ ?_ ?_, hname rfl ?_ ?_ ?_,
      hname rfl ?_ ?_ ?_, hname rfl ?_ ?_ ?_⟩ <;> decide
  have hcons : ∀ a d : Sexp, (a.cons d).Printable ↔ a.Printable ∧ d.PrintableTail :=
    fun _ _ => Iff.rfl
  have hprintable : ∀ e ∈ accessorTrees, e.Printable := by
    simp [accessorTrees, compositionTree, Sexp.list, hcons, Sexp.PrintableTail, hsymbol]
  exact contents_lines hprintable

end Lisp

end Bluejay
