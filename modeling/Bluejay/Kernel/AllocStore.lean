import Bluejay.Kernel.AllocSafety
import Bluejay.Kernel.Strings
import Bluejay.Lib.Store

/-!
# The allocator is a store of blocks

Seen from its clients, `malloc`, `realloc` and `free` are a `Store`: new payloads are apart from
those in use, `realloc` keeps the bytes, and nothing the allocator writes for itself reaches a
payload.

* `Clients.store` : the payloads in use.
* `changesOnly_malloc`, `changesOnly_free` : `malloc` writes in one hole, `free` in the block it
  takes back.
* `store_step`, `store_of_run` : a run whose calls meet `CallOk` is a run of the store.
* `payload_kept` : the bytes of a payload stay until a call is about it.
-/

namespace Bluejay

namespace Kernel

/-- The `n` bytes at `p`. -/
def contentsOf (m : Mem) (p n : ℕ) : List UInt8 := bytesAt (fun i => m (p + i)) n

/-- The payloads in use. -/
def Clients.store (c : Clients) : Store UInt8 := fun p =>
  (c.live.find? fun x => x.1 == p).map fun x => contentsOf c.state.mem x.1 x.2

/-- The operation of the store that a call stands for. -/
def Call.op : Call → Store.Op UInt8
  | .malloc n => .alloc n
  | .free p => .free p
  | .realloc p n => .resize p n
  | .write a b => .write a b

@[simp] theorem length_contentsOf (m : Mem) (p n : ℕ) : (contentsOf m p n).length = n :=
  length_bytesAt _ _

theorem contentsOf_congr {m m' : Mem} {p n : ℕ} (h : ∀ i < n, m' (p + i) = m (p + i)) :
    contentsOf m' p n = contentsOf m p n :=
  List.map_congr_left fun i hi => h i (List.mem_range.1 hi)

/-- The payload is changed in one place. -/
theorem contentsOf_update (m : Mem) {p n a : ℕ} {b : UInt8} (ha : p ≤ a ∧ a < p + n) :
    contentsOf (Function.update m a b) p n = (contentsOf m p n).set (a - p) b := by
  refine List.ext_getElem (by simp) fun i h₁ h₂ => ?_
  simp only [contentsOf, bytesAt, List.getElem_map, List.getElem_range, List.getElem_set]
  split_ifs with hi
  · rw [show p + i = a by omega, Function.update_self]
  · exact Function.update_of_ne (by omega) _ _

/-! ### The store of a list of payloads -/

section Store

variable {s s' : State} {live live' : List (ℕ × ℕ)} {p n : ℕ}

theorem store_cons : (Clients.mk s ((p, n) :: live)).store =
    Function.update (Clients.mk s live).store p (some (contentsOf s.mem p n)) := by
  funext q
  by_cases hq : q = p
  · simp [Clients.store, hq]
  · simp [Clients.store, Function.update_of_ne hq, beq_false_of_ne (Ne.symm hq)]

/-- The store is given by the bytes of its payloads. -/
theorem store_congr (h : ∀ x ∈ live, contentsOf s'.mem x.1 x.2 = contentsOf s.mem x.1 x.2) :
    (Clients.mk s' live).store = (Clients.mk s live).store := by
  induction live with
  | nil => rfl
  | cons x live ih =>
    rw [store_cons, store_cons, ih fun y hy => h y (List.mem_cons_of_mem _ hy),
      h x List.mem_cons_self]

theorem store_eq_none (h : ∀ x ∈ live, x.1 ≠ p) : (Clients.mk s live).store p = none := by
  rw [Clients.store, Option.map_eq_none_iff, List.find?_eq_none]
  exact fun x hx => by simpa using h x hx

theorem store_eq_some {d : List UInt8} (h : (Clients.mk s live).store p = some d) :
    (p, d.length) ∈ live ∧ d = contentsOf s.mem p d.length := by
  obtain ⟨⟨q, k⟩, hx, rfl⟩ := Option.map_eq_some_iff.1 h
  obtain rfl : q = p := by simpa using List.find?_some hx
  rw [length_contentsOf]
  exact ⟨List.mem_of_find?_eq_some hx, rfl⟩

/-- No address is in use twice. -/
abbrev Distinct (live : List (ℕ × ℕ)) : Prop := (live.map Prod.fst).Nodup

theorem store_of_mem (h : Distinct live) (hp : (p, n) ∈ live) :
    (Clients.mk s live).store p = some (contentsOf s.mem p n) := by
  cases hd : (Clients.mk s live).store p with
  | none =>
    rw [Clients.store, Option.map_eq_none_iff, List.find?_eq_none] at hd
    exact absurd (beq_self_eq_true p) (hd _ hp)
  | some d =>
    obtain ⟨hmem, hpay⟩ := store_eq_some hd
    have hlen := congrArg Prod.snd (List.inj_on_of_nodup_map h hmem hp rfl)
    rw [hpay, show d.length = n from hlen]

theorem store_perm (h : Distinct live) (hl : live.Perm live') :
    (Clients.mk s live).store = (Clients.mk s live').store := by
  have h' : Distinct live' := (hl.map _).nodup_iff.1 h
  funext q
  refine Option.ext fun d => ⟨fun hd => ?_, fun hd => ?_⟩
  · obtain ⟨hmem, hpay⟩ := store_eq_some hd
    rw [store_of_mem h' (hl.mem_iff.1 hmem), ← hpay]
  · obtain ⟨hmem, hpay⟩ := store_eq_some hd
    rw [store_of_mem h (hl.mem_iff.2 hmem), ← hpay]

theorem Distinct.ne_of_mem_erase (h : Distinct live) (hp : (p, n) ∈ live) {x : ℕ × ℕ}
    (hx : x ∈ live.erase (p, n)) : x.1 ≠ p := fun heq =>
  absurd (List.mem_map.2 ⟨x, hx, heq⟩)
    (List.nodup_cons.1 (((List.perm_cons_erase hp).map _).nodup_iff.1 h)).1

/-- A payload is given back. -/
theorem store_erase (h : Distinct live) (hp : (p, n) ∈ live) :
    (Clients.mk s (live.erase (p, n))).store =
      Function.update (Clients.mk s live).store p none := by
  rw [store_perm h (List.perm_cons_erase hp), store_cons, Function.update_idem]
  refine (Function.update_eq_self_iff.2 ?_).symm
  exact (store_eq_none fun x hx => h.ne_of_mem_erase hp hx).symm

end Store

/-! ### Where the payloads are -/

variable {L : Layout} {P : Partition L.mallocBase arenaEnd} {c : Clients} {x y : ℕ × ℕ}

/-- A contentsOf stands between the header and the footer of its block. -/
theorem Models.payload_within (h : Models L c P) (hx : x ∈ c.live) :
    blockOf x.1 + headerSize = x.1 ∧
      x.1 + x.2 + footerSize ≤ blockOf x.1 + size c.state.mem (blockOf x.1) := by
  obtain ⟨⟨hle, hlt⟩, hroom⟩ := h.live x hx
  have hb : blockOf x.1 + headerSize = x.1 := by
    rw [blockOf, sub32_of_le hle hlt, Nat.sub_add_cancel hle]
  exact ⟨hb, by omega⟩

theorem Models.distinct (h : Models L c P) : Distinct c.live := by
  refine List.pairwise_map.2 ((List.pairwise_map.1 h.safe.1).imp_of_mem ?_)
  intro x y hx _ hd heq
  have hlen := (h.fits_block hx).1
  rw [← heq] at hd
  simp only [Extent.Disjoint, headerSize, footerSize] at hd hlen
  omega

/-- The blocks of different payloads do not overlap. -/
theorem Models.disjoint_of_ne (h : Models L c P) (hx : x ∈ c.live) (hy : y ∈ c.live)
    (hne : x.1 ≠ y.1) : (extent c.state.mem x.1).Disjoint (extent c.state.mem y.1) := by
  rcases h.eq_or_disjoint (mem_blocks hx) (mem_blocks hy) with heq | hd
  · have hstart := congrArg Extent.start heq
    simp only [extent] at hstart
    rw [← (h.payload_within hx).1, hstart, (h.payload_within hy).1] at hne
    exact absurd rfl hne
  · exact hd

/-- Payloads do not overlap. -/
theorem Models.payload_disjoint (h : Models L c P) (hx : x ∈ c.live) (hy : y ∈ c.live)
    (hne : x.1 ≠ y.1) : Extent.Disjoint ⟨x.1, x.2⟩ ⟨y.1, y.2⟩ := by
  obtain ⟨hbx, hrx⟩ := h.payload_within hx
  obtain ⟨hby, hry⟩ := h.payload_within hy
  have hd := h.disjoint_of_ne hx hy hne
  simp only [Extent.Disjoint, extent] at hd ⊢
  omega

/-- Writes outside of its block leave a payload alone. -/
theorem Models.payload_kept (h : Models L c P) (hx : x ∈ c.live) {m' : Mem} {a : Extent}
    (hm : ChangesOnly c.state.mem m' a) (hd : (extent c.state.mem x.1).Disjoint a) :
    contentsOf m' x.1 x.2 = contentsOf c.state.mem x.1 x.2 := by
  obtain ⟨hb, hr⟩ := h.payload_within hx
  refine contentsOf_congr fun i hi => hm _ ?_
  simp only [Extent.Disjoint, extent] at hd
  omega

/-- A block that has just been handed out is apart from the others. -/
theorem Models.apart {s s' : State} {live : List (ℕ × ℕ)} {p n : ℕ}
    (h : Models L ⟨s', (p, n) :: live⟩ P) : (Clients.mk s live).store.Apart p n := by
  have hne : ∀ x ∈ live, x.1 ≠ p := fun x hx heq =>
    absurd (List.mem_map.2 ⟨x, hx, heq⟩) (List.nodup_cons.1 h.distinct).1
  refine ⟨h.ne_zero List.mem_cons_self, store_eq_none hne, fun q d hd => ?_⟩
  have hq := (store_eq_some hd).1
  exact h.payload_disjoint List.mem_cons_self (List.mem_cons_of_mem _ hq) (hne _ hq).symm

/-! ### What the functions write -/

theorem ok_of_map {α β ε : Type} {f : α → β} {r : Except ε α} {b : β} (h : r.map f = .ok b) :
    ∃ a, r = .ok a ∧ f a = b := by
  cases r with
  | error => cases h
  | ok a => exact ⟨a, rfl, Except.ok.inj h⟩

/-- **`malloc` writes in the hole it takes the block from.** -/
theorem changesOnly_malloc {s s' : State} {live : List (ℕ × ℕ)} {n p : ℕ}
    (h : Models L ⟨s, live⟩ P) (hok : MallocOk s n) (hr : malloc s n = .ok (p, s')) :
    ∃ e ∈ s.heap.entries, ChangesOnly s.mem s'.mem e.hole := by
  obtain ⟨e, i, hi, he, hk, -, hin⟩ := malloc_cases hr hok.1
  have hmem : e ∈ s.heap.entries := by
    rw [he]; exact List.mem_map_of_mem (List.mem_range.2 hi)
  have hsz : size s.mem e.address = e.key := (h.hole e hmem).2
  have hfit : Fits e.hole := h.fits_hole hmem
  have hfull : e.key < 2 ^ 32 := hsz ▸ size_lt _ _
  have hadr : e.address + e.key ≤ arenaEnd := (h.within_hole hmem).2
  have hend := arenaEnd_le
  have hH : headerSize = 12 := rfl
  have hF : footerSize = 4 := rfl
  refine ⟨e, hmem, ?_⟩
  unfold mallocIn at hin
  simp only [hsz] at hin
  split_ifs at hin with hexact hsmall
  · -- exact fit: nothing is written
    obtain ⟨heap, -, heq⟩ := ok_of_map hin
    cases heq
    exact fun _ _ => rfl
  · -- the remainder is too small for a block of its own
    obtain ⟨heap, -, heq⟩ := ok_of_map hin
    cases heq
    exact changesOnly_claim s.mem (a := e.hole) hfit
  · -- the front of the hole is split off
    rw [sub32_of_le hk hfull] at hsmall hin
    set k := n + headerSize + footerSize with hkdef
    have hu : u32 (e.address + k) = e.address + k := u32_of_lt (by omega)
    rw [hu] at hin
    obtain ⟨heap, -, heq⟩ := ok_of_map hin
    cases heq
    exact (split_writes s.mem (e := e.hole) (k := k) (by omega)
      (by simp only [HeapEntry.hole]; omega) hfit _ rfl).1

/-- **`free` writes in the block it takes back**, when neither neighbour is coalesced. -/
theorem changesOnly_free {s s' : State} {live : List (ℕ × ℕ)} {p n : ℕ}
    (h : Models L ⟨s, live⟩ P) (hp : (p, n) ∈ live) (hok : FreeOk s.mem p)
    (hr : free s p = .ok s') : ChangesOnly s.mem s'.mem (extent s.mem p) := by
  have hfit := h.fits_block hp
  have h0 : p ≠ 0 := h.ne_zero hp
  unfold free at hr
  rw [if_neg h0] at hr
  dsimp only at hr
  simp only [hok.1, hok.2, Bool.false_eq_true, if_false] at hr
  split_ifs at hr
  obtain ⟨heap, -, heq⟩ := ok_of_map hr
  cases heq
  dsimp only at hfit
  obtain ⟨hlen, hend⟩ := hfit
  have hin : headerSize ≤ (extent s.mem p).len := by omega
  have hh : blockOf p + headerSize ≤ 2 ^ 32 := by
    simp only [extent] at hend hin
    omega
  exact (((changesOnly_setAllocated _ hh).trans (changesOnly_setMagic _)).trans
    (changesOnly_setSize _ hh)).mono ⟨Nat.le_refl _, Nat.add_le_add_left hin _⟩

/-! ### Runs -/

/-- `realloc` hands out a block, copies the payload, and takes the old block back. -/
theorem realloc_cases {s s' : State} {p n q : ℕ} (h0 : p ≠ 0)
    (hok : ReallocOk s p n) (hr : realloc s p n = .ok (q, s'))
    (hq : ∀ new s₁, malloc s n = .ok (new, s₁) → new ≠ 0) :
    ∃ s₁, malloc s n = .ok (q, s₁) ∧ free (copyPayload s₁ q p) p = .ok s' := by
  unfold realloc at hr
  rw [if_neg h0, hok.1] at hr
  simp only [Bool.false_eq_true, if_false] at hr
  cases hm : malloc s n with
  | error => rw [hm] at hr; cases hr
  | ok r =>
    obtain ⟨new, s₁⟩ := r
    rw [hm] at hr
    dsimp only at hr
    rw [if_neg (hq new s₁ hm)] at hr
    obtain ⟨s₂, hf, heq⟩ := ok_of_map hr
    cases heq
    exact ⟨s₁, rfl, hf⟩

section Steps

variable {s s' : State} {live : List (ℕ × ℕ)} {p q m n : ℕ}

/-- `malloc` leaves the payloads in use alone. -/
theorem contentsOf_malloc (h : Models L ⟨s, live⟩ P) (hok : MallocOk s n)
    (hr : malloc s n = .ok (p, s')) (hx : x ∈ live) :
    contentsOf s'.mem x.1 x.2 = contentsOf s.mem x.1 x.2 := by
  obtain ⟨e, he, hm⟩ := changesOnly_malloc h hok hr
  exact h.payload_kept hx hm (h.safe.2.2 _ (mem_blocks hx) e he)

/-- `free` leaves the payloads that stay in use alone. -/
theorem contentsOf_free (h : Models L ⟨s, live⟩ P) (hp : (p, n) ∈ live) (hok : FreeOk s.mem p)
    (hr : free s p = .ok s') (hx : x ∈ live) (hne : x.1 ≠ p) :
    contentsOf s'.mem x.1 x.2 = contentsOf s.mem x.1 x.2 :=
  h.payload_kept hx (changesOnly_free h hp hok hr) (h.disjoint_of_ne (y := (p, n)) hx hp hne)

/-- A client's write changes one place of one payload. -/
theorem contentsOf_write (h : Models L ⟨s, live⟩ P) (hp : (p, n) ∈ live) {a : ℕ} {b : UInt8}
    (ha : p ≤ a ∧ a < p + n) (hx : x ∈ live) (hne : x.1 ≠ p) :
    contentsOf (Function.update s.mem a b) x.1 x.2 = contentsOf s.mem x.1 x.2 := by
  have hd := h.payload_disjoint hx hp hne
  refine contentsOf_congr fun i hi => Function.update_of_ne ?_ _ _
  simp only [Extent.Disjoint] at hd
  omega

theorem copyPayload_eta (s : State) (q p : ℕ) :
    (⟨(copyPayload s q p).mem, s.heap⟩ : State) = copyPayload s q p := by
  simp only [copyPayload]

/-- The bytes that `realloc` copies are those of the payload, and they fit in the new one. -/
theorem contentsOf_copyPayload {s₁ : State} (h : Models L ⟨s₁, (q, n) :: live⟩ P)
    (hp : (p, m) ∈ live) (hsz : size s₁.mem (blockOf p) ≤ n + headerSize + footerSize) :
    ChangesOnly s₁.mem (copyPayload s₁ q p).mem ⟨q, n⟩ ∧
      (contentsOf (copyPayload s₁ q p).mem q n).take m = contentsOf s₁.mem p m ∧ m ≤ n := by
  have hp' := List.mem_cons_of_mem (q, n) hp
  obtain ⟨hb, hr⟩ := h.payload_within hp'
  obtain ⟨hbq, hrq⟩ := h.payload_within (x := (q, n)) List.mem_cons_self
  have hlt := size_lt s₁.mem (blockOf p)
  have hne : q ≠ p := fun hqp => absurd (List.mem_map.2 ⟨_, hp, hqp.symm⟩)
    (List.nodup_cons.1 h.distinct).1
  dsimp only at hb hr hbq hrq
  have hH : headerSize = 12 := rfl
  have hF : footerSize = 4 := rfl
  have hk : sub32 (size s₁.mem (blockOf p)) (headerSize + footerSize) =
      size s₁.mem (blockOf p) - 16 := sub32_of_le (by omega) hlt
  have hblocks := h.disjoint_of_ne (x := (q, n)) List.mem_cons_self hp' hne
  simp only [Extent.Disjoint, extent] at hblocks
  refine ⟨fun i hi => ?_, ?_, by omega⟩
  · simp only [copyPayload, hk]
    exact Mem.memcpy_of_out (by dsimp only at hi; omega)
  · refine List.ext_getElem (by simp; omega) fun i h₁ h₂ => ?_
    rw [length_contentsOf] at h₂
    simp only [contentsOf, bytesAt, List.getElem_take, List.getElem_map, List.getElem_range,
      copyPayload, hk]
    exact Mem.memcpy_of_disjoint (by omega) (by omega)

/-- The bytes `realloc` copies go to the new payload only. -/
theorem contentsOf_copy {s₁ s₂ : State} (h : Models L ⟨s₁, (q, n) :: live⟩ P)
    (hcopy : ChangesOnly s₁.mem s₂.mem ⟨q, n⟩) (hx : x ∈ live) :
    contentsOf s₂.mem x.1 x.2 = contentsOf s₁.mem x.1 x.2 := by
  have hne : x.1 ≠ q := fun hxq => absurd (List.mem_map.2 ⟨x, hx, hxq⟩)
    (List.nodup_cons.1 h.distinct).1
  have hd := h.payload_disjoint (List.mem_cons_of_mem _ hx) (y := (q, n)) List.mem_cons_self hne
  refine contentsOf_congr fun i hi => hcopy _ ?_
  simp only [Extent.Disjoint] at hd ⊢
  omega

/-- `realloc` is the resizing of a block. -/
theorem store_realloc (h : Models L ⟨s, live⟩ P) (hp : (p, m) ∈ live) (hok : ReallocOk s p n)
    (hr : realloc s p n = .ok (q, s')) :
    Store.Step (Clients.mk s live).store (.resize p n)
      (Clients.mk s' ((q, n) :: live.erase (p, m))).store := by
  obtain ⟨s₁, hm, hf⟩ := realloc_cases (h.ne_zero hp) hok hr fun new s₁ hm => by
    obtain ⟨⟨P₁, h₁⟩, -⟩ := models_malloc h hok.2.2.1 hm
    exact h₁.ne_zero List.mem_cons_self
  obtain ⟨⟨P₁, h₁⟩, hkeep⟩ := models_malloc h hok.2.2.1 hm
  have hsize := congrArg Extent.len (hkeep _ hp)
  simp only [extent] at hsize
  obtain ⟨hcopy, htake, hmn⟩ := contentsOf_copyPayload h₁ hp (by rw [hsize]; exact hok.2.1)
  have h₂ := models_payload h₁ List.mem_cons_self hcopy
  rw [copyPayload_eta] at h₂
  have hfree := hok.2.2.2 q s₁ hm
  have hap := h₁.apart (s := s)
  have hq : q ≠ p := fun hqp => by
    have hnone := hap.unused
    rw [hqp, store_of_mem h.distinct hp] at hnone
    cases hnone
  -- what stays in use is not touched by any of the three steps
  have hold : ∀ x ∈ live.erase (p, m),
      contentsOf s'.mem x.1 x.2 = contentsOf s.mem x.1 x.2 := fun x hx => by
    have hmem := List.mem_of_mem_erase hx
    calc contentsOf s'.mem x.1 x.2
        = contentsOf (copyPayload s₁ q p).mem x.1 x.2 :=
          contentsOf_free h₂ (List.mem_cons_of_mem _ hp) hfree hf (List.mem_cons_of_mem _ hmem)
            (h.distinct.ne_of_mem_erase hp hx)
      _ = contentsOf s₁.mem x.1 x.2 := contentsOf_copy h₁ hcopy hmem
      _ = contentsOf s.mem x.1 x.2 := contentsOf_malloc h hok.2.2.1 hm hmem
  have hnew := contentsOf_free (x := (q, n)) h₂ (List.mem_cons_of_mem _ hp) hfree hf
    List.mem_cons_self hq
  have hpay := contentsOf_malloc (x := (p, m)) h hok.2.2.1 hm hp
  dsimp only at hnew hpay
  have hstep : Store.Step (Clients.mk s live).store (.resize p (contentsOf s'.mem q n).length)
      (Function.update (Function.update (Clients.mk s live).store p none) q
        (some (contentsOf s'.mem q n))) := by
    refine .resize (store_of_mem (s := s) h.distinct hp) ?_ ?_
    · rw [length_contentsOf]
      exact hap
    · rw [length_contentsOf, length_contentsOf, hnew, htake, hpay,
        List.take_of_length_le (by rw [length_contentsOf]; exact hmn)]
  rw [length_contentsOf] at hstep
  rw [store_cons, store_congr hold, store_erase h.distinct hp]
  exact hstep

/-- **One call is one operation of the store.** -/
theorem store_step {c c' : Clients} {l : Call} (h : ∃ P, Models L c P) (hok : CallOk c l)
    (hs : calls.step c l c') : Store.Step c.store l.op c'.store := by
  obtain ⟨P, h⟩ := h
  cases hs with
  | @malloc s s' live n p hn hr =>
    obtain ⟨⟨P', h'⟩, -⟩ := models_malloc h hok hr
    have hstep := Store.Step.alloc (S := (Clients.mk s live).store) (p := p)
      (d := contentsOf s'.mem p n) (by rw [length_contentsOf]; exact h'.apart)
    rw [length_contentsOf] at hstep
    rw [store_cons, store_congr fun x hx => contentsOf_malloc h hok hr hx]
    exact hstep
  | @free s s' live p n hp hr =>
    rw [store_congr fun x hx => contentsOf_free h hp hok hr (List.mem_of_mem_erase hx)
      (h.distinct.ne_of_mem_erase hp hx), store_erase h.distinct hp]
    exact .free (store_of_mem h.distinct hp)
  | realloc hp hn hr => exact store_realloc h hp hok hr
  | @write s live p n a b hp ha =>
    have hwrite : (Clients.mk ⟨Function.update s.mem a b, s.heap⟩ live).store =
        Function.update (Clients.mk s live).store p
          (some ((contentsOf s.mem p n).set (a - p) b)) := by
      rw [store_perm h.distinct (List.perm_cons_erase hp), store_cons, contentsOf_update _ ha,
        store_congr (s := s) fun x hx => contentsOf_write h hp ha (List.mem_of_mem_erase hx)
          (h.distinct.ne_of_mem_erase hp hx), store_erase h.distinct hp, Function.update_idem]
    rw [hwrite]
    exact .write (store_of_mem h.distinct hp) (by rw [length_contentsOf]; exact ha)

end Steps

/-- The allocator is in order, and `S` is what its clients see of it. -/
def Represents (L : Layout) (c : Clients) (S : Store UInt8) : Prop :=
  (∃ P, Models L c P) ∧ S = c.store

theorem represents_start (L : Layout) (m : Mem) : Represents L (start L m) Store.empty :=
  ⟨models_start L m, rfl⟩

/-- The store follows every call that meets the condition. -/
theorem represents_step {L : Layout} (c : Clients) (S : Store UInt8) (l : Call) (c' : Clients)
    (h : Represents L c S) (hs : (calls.guard CallOk).step c l c') :
    ∃ S', Store.blocks.step S l.op S' ∧ Represents L c' S' := by
  obtain ⟨hP, rfl⟩ := h
  exact ⟨c'.store, store_step hP hs.1 hs.2, models_step hP hs.1 hs.2, rfl⟩

/-- **The allocator refines a store of blocks**, in every run whose calls all meet the
condition. -/
theorem store_of_run {L : Layout} {m : Mem} {c : Clients} {ls : List Call}
    (h : (calls.guard CallOk).Run (start L m) ls c) :
    Store.blocks.Run Store.empty (ls.map Call.op) c.store := by
  obtain ⟨S, hS, -, rfl⟩ := h.followed Call.op represents_step (represents_start L m)
  exact hS

/-- A block of 16 bytes is handed out and written to. -/
theorem store_malloc_write : ∃ c, (start ⟨0xC0200000, by decide, by decide⟩ fun _ => 0).run
    [.malloc 16, .write 0xC020000D 7] = some c ∧
      Store.blocks.Run Store.empty [.alloc 16, .write 0xC020000D 7] c.store ∧
      c.store 0xC020000C = some [0, 7, 0, 0, 0, 0, 0, 0, 0, 0, 0, 0, 0, 0, 0, 0] := by
  let L : Layout := ⟨0xC0200000, by decide, by decide⟩
  let c₀ := start L fun _ => 0
  have hmalloc : CallOk c₀ (.malloc 16) := by
    refine ⟨by decide, fun e i heap hl hs => ?_⟩
    obtain ⟨-, hi, rfl, -⟩ := heapLookupMin_spec hl
    obtain rfl : i = 0 := Nat.lt_one_iff.1 hi
    exact absurd hs (by decide)
  have hpay : ((c₀.run [.malloc 16, .write 0xC020000D 7]).all fun c =>
      c.store 0xC020000C == some [0, 7, 0, 0, 0, 0, 0, 0, 0, 0, 0, 0, 0, 0, 0, 0]) = true := by
    decide
  have hrun : (c₀.run [.malloc 16, .write 0xC020000D 7]).isSome = true := by decide
  obtain ⟨c₂, hc₂⟩ := Option.isSome_iff_exists.1 hrun
  rw [hc₂, Option.all_some, beq_iff_eq] at hpay
  obtain ⟨c₁, h₁, hr⟩ := Option.bind_eq_some_iff.1 hc₂
  obtain ⟨c₂', h₂, hr⟩ := Option.bind_eq_some_iff.1 hr
  obtain rfl : c₂' = c₂ := Option.some.inj hr
  have hfirst : (calls.guard CallOk).Run c₀ ([] ++ [.malloc 16]) c₁ :=
    .snoc .nil ⟨hmalloc, callStep_of_call h₁⟩
  have hguard : (calls.guard CallOk).Run c₀ ([.malloc 16] ++ [.write 0xC020000D 7]) c₂' :=
    hfirst.snoc ⟨trivial, callStep_of_call h₂⟩
  exact ⟨c₂', hc₂, store_of_run hguard, hpay⟩

/-- **A payload keeps its bytes until a call is about it**, in every such run. -/
theorem payload_kept {L : Layout} {m : Mem} {c c' : Clients} {ls ls' : List Call} {p n : ℕ}
    (h : (calls.guard CallOk).Run (start L m) ls c) (h' : (calls.guard CallOk).Run c ls' c')
    (hp : (p, n) ∈ c.live) (hl : ∀ l ∈ ls', ¬ l.op.Touches p n) :
    c'.store p = some (contentsOf c.state.mem p n) := by
  obtain ⟨S, -, hc⟩ := h.followed Call.op represents_step (represents_start L m)
  obtain ⟨S', hS', -, rfl⟩ := h'.followed Call.op represents_step hc
  obtain ⟨⟨P, hP⟩, rfl⟩ := hc
  refine Store.Run.kept hS' (store_of_mem hP.distinct hp) fun o ho => ?_
  obtain ⟨l, hmem, rfl⟩ := List.mem_map.1 ho
  rw [length_contentsOf]
  exact hl l hmem

end Kernel

end Bluejay
