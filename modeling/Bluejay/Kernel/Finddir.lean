import Bluejay.Kernel.Ext2Vfs

/-!
# Enumeration and look-up

* `fsReaddir`, `fsFinddir` : the functions of `vfs.c`, over the drivers of `ext2_vfs.c` and
  `vfs_initrd.c`.
* `DirContent` : the entries of a directory, with the bytes that the drivers compare.
* `Agreement` : what is found by a name is what is reported with that name.
* `agreement_iff` : when this is so.
-/

namespace Bluejay

namespace Kernel

/-- What the drivers read: the structures of the nodes, the bytes of the initial ram disk, and the
variables of `vfs_initrd.c`. -/
structure Vfs where
  heap : VfsHeap
  mem : Mem
  realInitrd : ℕ
  initrdContent : ℕ
  entries : List InitrdFsEntry

/-- `sizeof(struct fs_node)`. -/
def fsNodeSize : ℕ := 168

/-- `strlen`, for the string at the address `a`. -/
def strlen (m : Mem) (a : ℕ) : ℕ := strnlen (fun i => m (a + i)) (2 ^ 32 - a)

/-! ### The drivers -/

/-- `initrd_readdir`, with what is in the entry before; `none` if it returns `false`. -/
def initrdReaddir (w : Vfs) (node i : ℕ) (out : FsDirent) : Option FsDirent :=
  if node ≠ w.realInitrd then none
  else
    match w.entries[i]? with
    | none => none
    | some e =>
      some { out with
        name := Ext2.assign out.name 0 (strlen w.mem e.name + 1) fun k => w.mem (e.name + k)
        inode := i }

/-- The loop of `initrd_finddir`, from the entry `i` on. -/
def initrdFinddirLoop (w : Vfs) (name : ℕ → UInt8) (nameLen : ℕ) :
    List InitrdFsEntry → ℕ → ℕ
  | [], _ => 0
  | e :: es, i =>
    if strncmp (fun k => w.mem (e.name + k)) name (min fsMaxNameLen nameLen) = 0 then
      w.initrdContent + fsNodeSize * i
    else initrdFinddirLoop w name nameLen es (i + 1)

/-- `initrd_finddir`. -/
def initrdFinddir (w : Vfs) (node : ℕ) (name : ℕ → UInt8) (nameLen : ℕ) : ℕ :=
  if node ≠ w.realInitrd then 0 else initrdFinddirLoop w name nameLen w.entries 0

/-- The loop of `ext2_dir_finddir`, for at most `fuel` entries. -/
def dirFinddirLoop (h : VfsHeap) (name : ℕ → UInt8) (nameLen : ℕ) : ℕ → ℕ → Option ℕ
  | 0, _ => none
  | fuel + 1, dent =>
    if dent = 0 then some 0
    else if strncmp (h.dirent dent).name name nameLen = 0 then some (h.dirent dent).node
    else dirFinddirLoop h name nameLen fuel (h.next dent)

/-- `ext2_dir_finddir`; `none` if it takes more steps. -/
def dirFinddir (h : VfsHeap) (node : ℕ) (name : ℕ → UInt8) (nameLen fuel : ℕ) : Option ℕ :=
  let nameLen := min nameLen 256
  dirFinddirLoop h name nameLen fuel (h.data (h.node node).driRes).dirent

/-! ### The tables of functions -/

/-- The field `readdir`. -/
def Vtable.readdir (w : Vfs) : Vtable → Option (ℕ → ℕ → FsDirent → Option FsDirent)
  | .ext2File => none
  | .ext2Dir => some (Ext2.dirReaddir w.heap)
  | .initrd => some (initrdReaddir w)

/-- The field `finddir`. -/
def Vtable.finddir (w : Vfs) (fuel : ℕ) : Vtable → Option (ℕ → (ℕ → UInt8) → ℕ → Option ℕ)
  | .ext2File => none
  | .ext2Dir => some fun node name nameLen => dirFinddir w.heap node name nameLen fuel
  | .initrd => some fun node name nameLen => some (initrdFinddir w node name nameLen)

/-- `fs_readdir`; `none` if it returns `false`. -/
def fsReaddir (w : Vfs) (n index : ℕ) (out : FsDirent) : Option FsDirent :=
  let node := follow w.heap.node n
  match (w.heap.node node).vtable.bind (Vtable.readdir w) with
  | none => none
  | some readdir =>
    if node = 0 ∨ (w.heap.node node).flags &&& 7 ≠ fsDirectory then none
    else readdir node index out

/-- `fs_finddir`; `none` if it takes more steps. -/
def fsFinddir (w : Vfs) (n : ℕ) (name : ℕ → UInt8) (nameLen fuel : ℕ) : Option ℕ :=
  let node := follow w.heap.node n
  match (w.heap.node node).vtable.bind (Vtable.finddir w fuel) with
  | none => some 0
  | some finddir =>
    if node = 0 ∨ (w.heap.node node).flags &&& 7 ≠ fsDirectory then some 0
    else finddir node name nameLen

/-! ### What they should do -/

/-- The name in an entry that was read.  `initrd_readdir` does not set the length; its names end
with a zero byte. -/
def reportedName : Option Vtable → FsDirent → List UInt8
  | some .initrd, out => bytesAt out.name (strnlen out.name 256)
  | _, out => bytesAt out.name out.nameLen

/-- The node of the entry `i`. -/
def entryNode (w : Vfs) (n i : ℕ) : ℕ :=
  let node := follow w.heap.node n
  match (w.heap.node node).vtable with
  | some .ext2Dir =>
    (w.heap.dirent (Ext2.readdirLoop w.heap i (w.heap.data (w.heap.node node).driRes).dirent)).node
  | _ => w.initrdContent + fsNodeSize * i

/-- `fs_readdir` reports an entry `i` with this whole name, whatever was in the entry before. -/
def Reports (w : Vfs) (n i : ℕ) (name : List UInt8) : Prop :=
  ∀ out, ∃ e ∈ fsReaddir w n i out,
    reportedName (w.heap.node (follow w.heap.node n)).vtable e = name

/-- `fs_finddir` returns, with a node exactly if an entry with this whole name is reported, and it
is the node of such an entry. -/
def Agreement (w : Vfs) (n : ℕ) (name : ℕ → UInt8) (nameLen : ℕ) : Prop :=
  ∃ fuel node, fsFinddir w n name nameLen fuel = some node ∧
    (node ≠ 0 ↔ ∃ i, Reports w n i (bytesAt name nameLen)) ∧
    (node ≠ 0 → ∃ i, Reports w n i (bytesAt name nameLen) ∧ entryNode w n i = node)

/-- An entry of a directory: the bytes from the start of its name on, its name, and its node. -/
structure DirEntry where
  stored : ℕ → UInt8
  name : List UInt8
  node : ℕ
  begins : ∀ i < name.length, stored i = bytesOf name i

/-- The bytes of the entry and the name are the same, up to the first zero byte of the first
`cap`. -/
def DirEntry.Agrees (cap : ℕ) (name : ℕ → UInt8) (nameLen : ℕ) (e : DirEntry) : Prop :=
  Agree (min nameLen cap) e.stored name

instance (cap : ℕ) (name : ℕ → UInt8) (nameLen : ℕ) :
    DecidablePred (DirEntry.Agrees cap name nameLen) :=
  fun e => inferInstanceAs (Decidable (Agree _ e.stored name))

/-- The first entry that agrees with the name. -/
def firstAgreeing (cap : ℕ) (name : ℕ → UInt8) (nameLen : ℕ) (es : List DirEntry) :
    Option DirEntry :=
  es.find? fun e => e.Agrees cap name nameLen

/-- The node is a directory of the driver. -/
structure IsDirectory (w : Vfs) (n : ℕ) (vtable : Vtable) : Prop where
  ne_zero : follow w.heap.node n ≠ 0
  vtable : (w.heap.node (follow w.heap.node n)).vtable = some vtable
  flags : (w.heap.node (follow w.heap.node n)).flags &&& 7 = fsDirectory

/-- The entry in the memory of the driver of `ext2_vfs.c`. -/
structure Ext2Entry (h : VfsHeap) (p : ℕ) (e : DirEntry) : Prop where
  name : (h.dirent p).name = e.stored
  nameLen : (h.dirent p).nameLen = e.name.length
  node : (h.dirent p).node = e.node

/-- The entry in the memory of the driver of `vfs_initrd.c`, with a name that ends with a zero
byte. -/
structure InitrdEntry (m : Mem) (x : InitrdFsEntry) (e : DirEntry) : Prop where
  name : ∀ i, m (x.name + i) = e.stored i
  nonzero : 0 ∉ e.name
  zero : e.stored e.name.length = 0
  short : e.name.length < 256
  inside : x.name + e.name.length < 2 ^ 32

/-- The directory has these entries, each with a node of its own, and its driver compares `cap`
bytes. -/
inductive DirContent (w : Vfs) (n : ℕ) (es : List DirEntry) : ℕ → Prop
  | ext2 {ps : List ℕ} (hdir : IsDirectory w n .ext2Dir)
    (hhead : (w.heap.data (w.heap.node (follow w.heap.node n)).driRes).dirent = ps.headD 0)
    (hzero : 0 ∉ ps) (hlist : Forward w.heap.next ps 0)
    (hentries : List.Forall₂ (Ext2Entry w.heap) ps es) (hnodes : 0 ∉ es.map DirEntry.node)
    (hnodup : (es.map DirEntry.node).Nodup) : DirContent w n es 256
  | initrd (hdir : IsDirectory w n .initrd) (hreal : follow w.heap.node n = w.realInitrd)
    (hcontent : w.initrdContent ≠ 0) (hentries : List.Forall₂ (InitrdEntry w.mem) w.entries es)
    (hnodes : ∀ i e, es[i]? = some e → e.node = w.initrdContent + fsNodeSize * i) :
    DirContent w n es fsMaxNameLen

/-- `fs_readdir` reports these entries. -/
structure Enumerates (w : Vfs) (n : ℕ) (es : List DirEntry) : Prop where
  reports : ∀ i name, Reports w n i name ↔ ∃ e, es[i]? = some e ∧ e.name = name
  node : ∀ i e, es[i]? = some e → entryNode w n i = e.node

section Finddir

variable {w : Vfs} {h : VfsHeap} {n i cap nameLen fuel node : ℕ} {name : ℕ → UInt8}
  {es : List DirEntry} {e : DirEntry} {ps : List ℕ}

/-! ### A search with a weaker test -/

theorem DirEntry.agrees_of_name (h : e.name = bytesAt name nameLen) :
    e.Agrees cap name nameLen := by
  intro i hi _
  have hlen : i < e.name.length := by
    rw [h, length_bytesAt]
    omega
  rw [e.begins i hlen, h, bytesOf_bytesAt (by omega)]

theorem firstAgreeing_pos (h : e.Agrees cap name nameLen) :
    firstAgreeing cap name nameLen (e :: es) = some e := List.find?_cons_of_pos (decide_eq_true h)

theorem firstAgreeing_neg (h : ¬ e.Agrees cap name nameLen) :
    firstAgreeing cap name nameLen (e :: es) = firstAgreeing cap name nameLen es :=
  List.find?_cons_of_neg (by simpa using h)

/-- The node of the first entry that agrees is the right one exactly if that entry has the name. -/
theorem find_agrees_iff (hnodes : 0 ∉ es.map DirEntry.node)
    (hnodup : (es.map DirEntry.node).Nodup)
    (hnode : (firstAgreeing cap name nameLen es).elim 0 DirEntry.node = node) :
    (node ≠ 0 ↔ ∃ e ∈ es, e.name = bytesAt name nameLen) ∧
      (node ≠ 0 → ∃ e ∈ es, e.name = bytesAt name nameLen ∧ e.node = node) ↔
      ∀ e ∈ firstAgreeing cap name nameLen es, e.name = bytesAt name nameLen := by
  cases hfind : firstAgreeing cap name nameLen es with
  | none =>
    rw [hfind] at hnode
    obtain rfl : 0 = node := hnode
    have hnone := List.find?_eq_none.1 hfind
    refine iff_of_true ⟨iff_of_false (fun hne => hne rfl) ?_, fun hne => absurd rfl hne⟩
      fun e he => by cases he
    -- an entry with the name would agree
    rintro ⟨e, he, hname⟩
    exact hnone e he (decide_eq_true (e.agrees_of_name hname))
  | some e =>
    rw [hfind] at hnode
    obtain rfl : e.node = node := hnode
    have he := List.mem_of_find?_eq_some hfind
    have hne : e.node ≠ 0 := fun heq => hnodes (List.mem_map.2 ⟨e, he, heq⟩)
    constructor
    · -- the nodes tell the entries apart
      rintro ⟨-, hfound⟩ e' he'
      obtain rfl : e = e' := Option.some_inj.1 he'
      obtain ⟨e', he', hname, hnode⟩ := hfound hne
      rwa [List.inj_on_of_nodup_map hnodup he' he hnode] at hname
    · intro hname
      have hname := hname e rfl
      exact ⟨iff_of_true hne ⟨e, he, hname⟩, fun _ => ⟨e, he, hname, rfl⟩⟩

/-! ### The loops -/

/-- The loop of `ext2_dir_finddir` returns the node of the first entry that agrees. -/
theorem dirFinddirLoop_iff (hzero : 0 ∉ ps) (hlist : Forward h.next ps 0)
    (hentries : List.Forall₂ (Ext2Entry h) ps es) :
    (∃ fuel, dirFinddirLoop h name (min nameLen 256) fuel (ps.headD 0) = some node) ↔
      (firstAgreeing 256 name nameLen es).elim 0 DirEntry.node = node := by
  have hsucc : ∀ dent, (∃ fuel, dirFinddirLoop h name (min nameLen 256) fuel dent = some node) ↔
      ∃ fuel, dirFinddirLoop h name (min nameLen 256) (fuel + 1) dent = some node := by
    refine fun dent => ⟨fun ⟨fuel, hfuel⟩ => ?_, fun ⟨fuel, hfuel⟩ => ⟨fuel + 1, hfuel⟩⟩
    cases fuel with
    | zero => cases hfuel
    | succ fuel => exact ⟨fuel, hfuel⟩
  induction hentries with
  | nil =>
    rw [hsucc]
    simp [dirFinddirLoop, firstAgreeing]
  | @cons p e ps es he _ ih =>
    obtain ⟨hp, hps⟩ := not_or.1 (mt List.mem_cons.2 hzero)
    rw [hsucc]
    simp only [List.headD_cons, dirFinddirLoop, if_neg (Ne.symm hp), strncmp_eq_zero, he.name]
    by_cases hagree : e.Agrees 256 name nameLen
    · rw [firstAgreeing_pos hagree]
      have hif : Agree (min nameLen 256) e.stored name := hagree
      simp [if_pos hif, he.node]
    · rw [firstAgreeing_neg hagree]
      have hif : ¬ Agree (min nameLen 256) e.stored name := hagree
      simp only [if_neg hif, hlist.1]
      exact ih hps hlist.2

/-- The loop of `initrd_finddir` as well. -/
theorem initrdFinddirLoop_eq {xs : List InitrdFsEntry} (name : ℕ → UInt8) (nameLen i : ℕ)
    (hentries : List.Forall₂ (InitrdEntry w.mem) xs es)
    (hnodes : ∀ k e, es[k]? = some e → e.node = w.initrdContent + fsNodeSize * (i + k)) :
    initrdFinddirLoop w name nameLen xs i =
      (firstAgreeing fsMaxNameLen name nameLen es).elim 0 DirEntry.node := by
  induction hentries generalizing i with
  | nil => rfl
  | @cons x e xs es he _ ih =>
    have hstored : (fun k => w.mem (x.name + k)) = e.stored := funext he.name
    rw [initrdFinddirLoop, hstored]
    simp only [strncmp_eq_zero]
    by_cases hagree : e.Agrees fsMaxNameLen name nameLen
    · have hif : Agree (min fsMaxNameLen nameLen) e.stored name := Nat.min_comm _ _ ▸ hagree
      rw [firstAgreeing_pos hagree, if_pos hif]
      exact (hnodes 0 e rfl).symm
    · have hif : ¬ Agree (min fsMaxNameLen nameLen) e.stored name := Nat.min_comm _ _ ▸ hagree
      rw [firstAgreeing_neg hagree, if_neg hif]
      refine ih (i + 1) fun k e' hk => ?_
      rw [hnodes (k + 1) e' hk, Nat.add_assoc, Nat.add_comm 1]

/-! ### What is reported -/

theorem IsDirectory.fsReaddir {vtable : Vtable} (hdir : IsDirectory w n vtable) (i : ℕ)
    (out : FsDirent) : fsReaddir w n i out = match vtable.readdir w with
      | none => none
      | some readdir => readdir (follow w.heap.node n) i out := by
  rw [Kernel.fsReaddir, hdir.vtable, Option.bind_some]
  cases vtable.readdir w with
  | none => rfl
  | some readdir =>
    exact if_neg (not_or.2 ⟨hdir.ne_zero, not_not.2 hdir.flags⟩)

theorem IsDirectory.fsFinddir {vtable : Vtable} (hdir : IsDirectory w n vtable)
    (name : ℕ → UInt8) (nameLen fuel : ℕ) :
    fsFinddir w n name nameLen fuel = match vtable.finddir w fuel with
      | none => some 0
      | some finddir => finddir (follow w.heap.node n) name nameLen := by
  rw [Kernel.fsFinddir, hdir.vtable, Option.bind_some]
  cases vtable.finddir w fuel with
  | none => rfl
  | some finddir =>
    exact if_neg (not_or.2 ⟨hdir.ne_zero, not_not.2 hdir.flags⟩)

/-- What is read at each index is reported. -/
theorem reports_iff {bs : List UInt8}
    (hsome : ∀ e, es[i]? = some e → ∀ out, ∃ out' ∈ fsReaddir w n i out,
      reportedName (w.heap.node (follow w.heap.node n)).vtable out' = e.name)
    (hnone : es.length ≤ i → ∀ out, fsReaddir w n i out = none) :
    Reports w n i bs ↔ ∃ e, es[i]? = some e ∧ e.name = bs := by
  cases he : es[i]? with
  | none =>
    refine iff_of_false (fun h => ?_) (by simp)
    obtain ⟨e, hread, -⟩ := h ⟨fun _ => 0, 0, 0⟩
    rw [hnone (List.getElem?_eq_none_iff.1 he)] at hread
    cases hread
  | some e =>
    constructor
    · intro h
      obtain ⟨out', hread', hname'⟩ := h ⟨fun _ => 0, 0, 0⟩
      obtain ⟨out, hread, hname⟩ := hsome e he ⟨fun _ => 0, 0, 0⟩
      obtain rfl : out = out' := Option.some_inj.1 (hread.symm.trans hread')
      exact ⟨e, rfl, hname.symm.trans hname'⟩
    · rintro ⟨e', he', rfl⟩ out
      obtain rfl : e = e' := Option.some_inj.1 he'
      exact hsome e he out

/-- The entries of the list of `ext2_vfs.c`. -/
theorem enumerates_ext2 (hdir : IsDirectory w n .ext2Dir)
    (hhead : (w.heap.data (w.heap.node (follow w.heap.node n)).driRes).dirent = ps.headD 0)
    (hzero : 0 ∉ ps) (hlist : Forward w.heap.next ps 0)
    (hentries : List.Forall₂ (Ext2Entry w.heap) ps es) : Enumerates w n es := by
  have hread : ∀ i out, fsReaddir w n i out =
      Ext2.dirReaddir w.heap (follow w.heap.node n) i out := hdir.fsReaddir
  have hloop : ∀ i, Ext2.readdirLoop w.heap i
      (w.heap.data (w.heap.node (follow w.heap.node n)).driRes).dirent = ps.getD i 0 := by
    intro i
    rw [hhead, Ext2.readdirLoop_eq hlist hzero]
  have hentry : ∀ i e, es[i]? = some e → ps.getD i 0 ≠ 0 ∧ Ext2Entry w.heap (ps.getD i 0) e := by
    intro i e he
    obtain ⟨hi, rfl⟩ := List.getElem?_eq_some_iff.1 he
    have hi' : i < ps.length := hentries.length_eq ▸ hi
    rw [List.getD_eq_getElem _ _ hi']
    exact ⟨fun heq => hzero (heq ▸ List.getElem_mem hi'), hentries.get hi' hi⟩
  refine ⟨fun i bs => reports_iff (fun e he out => ?_) fun hi out => ?_, fun i e he => ?_⟩
  · obtain ⟨hne, hok⟩ := hentry i e he
    have hstored : Ext2.EntryOk (e.name, (w.heap.dirent (ps.getD i 0)).inode)
        (w.heap.dirent (ps.getD i 0)) :=
      ⟨hok.nameLen, fun j hj => hok.name ▸ e.begins j hj, rfl⟩
    obtain ⟨out', hout, hok'⟩ := Ext2.dirReaddir_ok (hloop i) hne hstored out
    refine ⟨out', (hread i out).trans hout, ?_⟩
    rw [hdir.vtable]
    have hlen : e.name.length = out'.nameLen := hok'.nameLen.symm
    exact (eq_bytesAt hlen fun j hj => hok'.name j (hlen ▸ hj)).symm
  · rw [hread, Ext2.dirReaddir, hloop, List.getD_eq_default _ _ (hentries.length_eq ▸ hi)]
    rfl
  · rw [entryNode, hdir.vtable]
    simp only
    rw [hloop]
    exact (hentry i e he).2.node

/-- The name that `initrd_readdir` copies. -/
theorem InitrdEntry.strlen_eq {m : Mem} {x : InitrdFsEntry} (he : InitrdEntry m x e) :
    strlen m x.name = e.name.length := by
  have hinside := he.inside
  refine strnlen_eq (by omega) (fun j hj => ?_) fun _ => ?_
  · rw [he.name, e.begins j hj, bytesOf_of_lt hj]
    exact fun heq => he.nonzero (heq ▸ List.getElem_mem hj)
  · rw [he.name, he.zero]

theorem InitrdEntry.reported {m : Mem} {x : InitrdFsEntry} (he : InitrdEntry m x e)
    {s : ℕ → UInt8} (hs : ∀ j ≤ e.name.length, s j = e.stored j) :
    bytesAt s (strnlen s 256) = e.name := by
  have hbegins : ∀ j < e.name.length, s j = bytesOf e.name j := fun j hj =>
    (hs j (Nat.le_of_lt hj)).trans (e.begins j hj)
  have hlen : strnlen s 256 = e.name.length := by
    refine strnlen_eq (Nat.le_of_lt he.short) (fun j hj => ?_) fun _ => ?_
    · rw [hbegins j hj, bytesOf_of_lt hj]
      exact fun heq => he.nonzero (heq ▸ List.getElem_mem hj)
    · rw [hs _ (Nat.le_refl _), he.zero]
  rw [hlen]
  exact (eq_bytesAt rfl hbegins).symm

/-- The entries of the initial ram disk. -/
theorem enumerates_initrd (hdir : IsDirectory w n .initrd)
    (hreal : follow w.heap.node n = w.realInitrd)
    (hentries : List.Forall₂ (InitrdEntry w.mem) w.entries es)
    (hnodes : ∀ i e, es[i]? = some e → e.node = w.initrdContent + fsNodeSize * i) :
    Enumerates w n es := by
  have hread : ∀ i out, fsReaddir w n i out =
      initrdReaddir w (follow w.heap.node n) i out := hdir.fsReaddir
  refine ⟨fun i bs => reports_iff (fun e he out => ?_) fun hi out => ?_, fun i e he => ?_⟩
  · obtain ⟨hi, rfl⟩ := List.getElem?_eq_some_iff.1 he
    have hi' : i < w.entries.length := hentries.length_eq ▸ hi
    have hok : InitrdEntry w.mem w.entries[i] es[i] := hentries.get hi' hi
    rw [hread, initrdReaddir, if_neg (not_not.2 hreal), List.getElem?_eq_getElem hi']
    refine ⟨_, rfl, ?_⟩
    rw [hdir.vtable, hok.strlen_eq]
    -- the zero byte is copied, too
    have hcopied : ∀ j ≤ es[i].name.length, Ext2.assign out.name 0 (es[i].name.length + 1)
        (fun k => w.mem (w.entries[i].name + k)) j = es[i].stored j := by
      intro j hj
      rw [Ext2.assign, if_pos (by omega), Nat.sub_zero, hok.name]
    exact hok.reported hcopied
  · rw [hread, initrdReaddir, if_neg (not_not.2 hreal),
      List.getElem?_eq_none (hentries.length_eq ▸ hi)]
  · rw [entryNode, hdir.vtable]
    exact (hnodes i e he).symm

/-- The directory is enumerated as it is. -/
theorem DirContent.enumerates (h : DirContent w n es cap) : Enumerates w n es := by
  cases h with
  | ext2 hdir hhead hzero hlist hentries _ _ =>
    exact enumerates_ext2 hdir hhead hzero hlist hentries
  | initrd hdir hreal _ hentries hnodes => exact enumerates_initrd hdir hreal hentries hnodes

/-! ### What is found -/

/-- `fs_finddir` returns the node of the first entry that agrees. -/
theorem DirContent.fsFinddir_iff (h : DirContent w n es cap) (name : ℕ → UInt8)
    (nameLen node : ℕ) :
    (∃ fuel, fsFinddir w n name nameLen fuel = some node) ↔
      (firstAgreeing cap name nameLen es).elim 0 DirEntry.node = node := by
  cases h with
  | ext2 hdir hhead hzero hlist hentries _ _ =>
    rw [← dirFinddirLoop_iff hzero hlist hentries, ← hhead]
    exact exists_congr fun fuel => by rw [hdir.fsFinddir]; rfl
  | initrd hdir hreal _ hentries hnodes =>
    have hloop := initrdFinddirLoop_eq name nameLen 0 hentries
      fun k e he => by rw [hnodes k e he, Nat.zero_add]
    have hfind : ∀ fuel, fsFinddir w n name nameLen fuel =
        some ((firstAgreeing fsMaxNameLen name nameLen es).elim 0 DirEntry.node) := by
      intro fuel
      rw [hdir.fsFinddir, ← hloop]
      exact congrArg some (if_neg (not_not.2 hreal))
    simp only [hfind, exists_const, Option.some_inj]

theorem DirContent.nodes (h : DirContent w n es cap) :
    0 ∉ es.map DirEntry.node ∧ (es.map DirEntry.node).Nodup := by
  cases h with
  | ext2 _ _ _ _ _ hnodes hnodup => exact ⟨hnodes, hnodup⟩
  | initrd _ _ hcontent _ hnodes =>
    have hmap : es.map DirEntry.node =
        (List.range es.length).map fun i => w.initrdContent + fsNodeSize * i := by
      refine List.ext_getElem (by simp) fun i h₁ h₂ => ?_
      rw [List.getElem_map, hnodes i _ (List.getElem?_eq_getElem _)]
      simp
    rw [hmap]
    refine ⟨fun hmem => ?_, List.nodup_range.map fun i j heq => ?_⟩
    · obtain ⟨i, -, hi⟩ := List.mem_map.1 hmem
      omega
    · have hsize : 0 < fsNodeSize := by decide
      exact Nat.eq_of_mul_eq_mul_left hsize (Nat.add_left_cancel heq)

/-- What is found by a name is what is reported with that name, exactly if the first entry that
agrees with the name on the bytes that are compared, if there is one, has this name. -/
theorem agreement_iff (h : DirContent w n es cap) : Agreement w n name nameLen ↔
    ∀ e ∈ firstAgreeing cap name nameLen es, e.name = bytesAt name nameLen := by
  obtain ⟨hreports, hnode⟩ := h.enumerates
  obtain ⟨hzero, hnodup⟩ := h.nodes
  have hexists : ∀ bs, (∃ i, Reports w n i bs) ↔ ∃ e ∈ es, e.name = bs := by
    intro bs
    simp only [hreports, List.mem_iff_getElem?]
    exact ⟨fun ⟨i, e, he, hname⟩ => ⟨e, ⟨i, he⟩, hname⟩,
      fun ⟨e, ⟨i, he⟩, hname⟩ => ⟨i, e, he, hname⟩⟩
  have hfound : ∀ bs node, (∃ i, Reports w n i bs ∧ entryNode w n i = node) ↔
      ∃ e ∈ es, e.name = bs ∧ e.node = node := by
    intro bs node
    simp only [hreports, List.mem_iff_getElem?]
    constructor
    · rintro ⟨i, ⟨e, he, hname⟩, hi⟩
      exact ⟨e, ⟨i, he⟩, hname, (hnode i e he).symm.trans hi⟩
    · rintro ⟨e, ⟨i, he⟩, hname, hi⟩
      exact ⟨i, ⟨e, he, hname⟩, (hnode i e he).trans hi⟩
  have hfinds := h.fsFinddir_iff name nameLen
  rw [← find_agrees_iff hzero hnodup rfl, Agreement]
  simp only [hexists, hfound]
  constructor
  · rintro ⟨fuel, node, hnode, hright⟩
    rwa [(hfinds node).1 ⟨fuel, hnode⟩]
  · intro hright
    obtain ⟨fuel, hfuel⟩ := (hfinds _).2 rfl
    exact ⟨fuel, _, hfuel, hright⟩

/-! ### What `ext2_inode2vfs` makes -/

theorem exists_ext2Entries {calls : List (List UInt8 × ℕ)}
    (h' : List.Forall₂ (fun call p => Ext2.EntryOk call (h.dirent p)) calls ps) :
    ∃ es, List.Forall₂ (Ext2Entry h) ps es ∧ es.map DirEntry.name = calls.map Prod.fst ∧
      es.map DirEntry.node = ps.map fun p => (h.dirent p).node := by
  induction h' with
  | nil => exact ⟨[], .nil, rfl, rfl⟩
  | @cons call p calls ps hok _ ih =>
    obtain ⟨es, hentries, hnames, hnodes⟩ := ih
    let e : DirEntry := ⟨(h.dirent p).name, call.1, (h.dirent p).node, hok.name⟩
    exact ⟨e :: es, .cons ⟨rfl, hok.nameLen, rfl⟩ hentries, congrArg (call.1 :: ·) hnames,
      congrArg ((h.dirent p).node :: ·) hnodes⟩

/-- If its list ends, a directory that `ext2_inode2vfs` returns has the entries that it did not
skip. -/
theorem dirContent_of_inode2vfs {E : Ext2.VfsEnv} {dir : Ext2.Inode} {inode : ℕ}
    {dirName : List UInt8} {heap : VfsHeap} {run : Ext2.LsRun Ext2.LsEnd Unit}
    (hfind : Ext2.findInode E.sb E.disk inode = some dir) (htype : dir.type = 0x4000)
    (hmake : Ext2.inode2vfs E fuel [] inode dirName heap = some (node, w.heap))
    (hn : follow w.heap.node n = node) (hls : Ext2.ListsInode E [] inode run)
    (hend : ∀ k ∈ (Ext2.kept run.calls 0).getLast?, heap.next (E.dirents.address [k]) = 0) :
    ∃ es, DirContent w n es 256 ∧
      es.map DirEntry.name = (run.calls.filter fun call => ¬ Ext2.Skipped call.1).map Prod.fst := by
  cases fuel with
  | zero => cases hmake
  | succ fuel =>
    obtain ⟨rfl, h₀, run', result, s, hready, hls', -, -, hb, hheap⟩ :=
      Ext2.built_of_inode2vfs hfind htype (Ext2.buildOk_inode2vfs E [] fuel) hmake
    obtain rfl := hls.unique ⟨dir, hfind, fuel, hls'⟩
    have hnode : w.heap.node (E.nodes.address []) = h₀.node (E.nodes.address []) := by
      rw [← hheap]
      exact hb.node [] fun k _ => Ext2.not_suffix_of_length (Nat.succ_pos 0)
    obtain ⟨es, hentries, hnames, hnodes⟩ := exists_ext2Entries hb.entries
    rw [hheap] at hentries hnodes
    -- each entry has the node of its place
    have hmap : es.map DirEntry.node =
        (Ext2.kept run.calls 0).map fun k => E.nodes.address [k] := by
      rw [hnodes, Ext2.listed, List.map_map]
      refine List.map_congr_left fun k hk => ?_
      rw [← hheap]
      exact hb.nodes k hk
    have hnext : h₀.next = heap.next := by
      funext a
      rw [VfsHeap.next, hready.dirent]
      rfl
    have hlist : Forward w.heap.next (Ext2.listed E [] run.calls) 0 :=
      hheap ▸ hb.forward (Ext2.listed_getLast.2 (hnext ▸ hend))
    refine ⟨es, .ext2 ⟨?_, ?_, ?_⟩ ?_ Ext2.zero_not_mem_listed hlist hentries ?_ ?_, hnames⟩
    · rw [hn]
      exact E.nodes.ne_zero []
    · rw [hn, hnode, hready.vtable]
    · rw [hn, hnode, hready.flags]
      rfl
    · rw [hn, hnode, hready.driRes, ← hb.head, hheap]
    · rw [hmap]
      intro hmem
      obtain ⟨k, -, hk⟩ := List.mem_map.1 hmem
      exact E.nodes.ne_zero [k] hk
    · rw [hmap]
      refine (Ext2.kept_nodup run.calls 0).map fun i j heq => ?_
      exact (List.cons.inj (E.nodes.injective heq)).1

end Finddir

/-! ### Two directories with one file -/

/-- The file `ab`. -/
def sampleEntry (node : ℕ) : DirEntry := ⟨bytesOf [97, 98], [97, 98], node, fun _ _ => rfl⟩

def sampleNode (vtable : Vtable) : FsNode :=
  ⟨0, fun _ => 0, 0, fsDirectory, 0, 0, 0, 0, 0, some vtable, 0⟩

/-- The node 1 is a directory of the driver of `ext2_vfs.c`, and 2 is `real_initrd`. -/
def sampleVfs : Vfs where
  heap :=
    { dirent := fun _ => ⟨5, bytesOf [97, 98], 2, 12, 0⟩
      data := fun _ => ⟨0, 0, 7⟩
      node := fun a => if a = 1 then sampleNode .ext2Dir else sampleNode .initrd }
  mem := fun a => bytesOf [97, 98] (a - 100)
  realInitrd := 2
  initrdContent := 200
  entries := [⟨100, 172, 0⟩]

theorem sample_ext2 : DirContent sampleVfs 1 [sampleEntry 5] 256 :=
  have hlist : Forward sampleVfs.heap.next [7] 0 := ⟨rfl, trivial⟩
  .ext2 ⟨by decide, rfl, by decide⟩ rfl (by decide) hlist (.cons ⟨rfl, rfl, rfl⟩ .nil)
    (by decide) (by decide)

theorem sample_initrd : DirContent sampleVfs 2 [sampleEntry 200] fsMaxNameLen := by
  refine .initrd ⟨by decide, rfl, by decide⟩ rfl (by decide)
    (.cons ⟨fun i => ?_, by decide, rfl, by decide, by decide⟩ .nil) fun i e he => ?_
  · change bytesOf [97, 98] (100 + i - 100) = bytesOf [97, 98] i
    rw [Nat.add_sub_cancel_left]
  · cases i with
    | zero =>
      obtain rfl := Option.some_inj.1 he
      rfl
    | succ i => cases he

theorem agreement_sample : Agreement sampleVfs 1 (bytesOf [97, 98]) 2 ∧
    Agreement sampleVfs 2 (bytesOf [97, 98]) 2 :=
  ⟨(agreement_iff sample_ext2).2 (by decide), (agreement_iff sample_initrd).2 (by decide)⟩

/-- The node of `ab` is found by the name `a`, in both directories. -/
theorem not_agreement : ¬ ∀ (w : Vfs) (n : ℕ) (es : List DirEntry) (cap : ℕ) (name : ℕ → UInt8)
    (nameLen : ℕ), DirContent w n es cap → 0 < nameLen → Agreement w n name nameLen := by
  intro h
  obtain ⟨fuel, node, hnode, -, hfound⟩ :=
    h sampleVfs 1 _ 256 (bytesOf [97, 98]) 1 sample_ext2 (by decide)
  have hnode : 5 = node := (sample_ext2.fsFinddir_iff _ 1 node).1 ⟨fuel, hnode⟩
  obtain ⟨i, hreports, -⟩ := hfound (by omega)
  obtain ⟨e, he, hname⟩ := (sample_ext2.enumerates.reports i _).1 hreports
  obtain rfl := List.mem_singleton.1 (List.mem_of_getElem? he)
  exact absurd hname (by decide)

end Kernel

end Bluejay
