import Gardos.Fs.Walk
import Gardos.Fs.Contents

/-!
# The directory tree on a volume

`Represents v t` says that the volume `v` holds the directory tree `t`: its contents are the
objects of `t`, the entries of each directory are its children together with `"."` and `".."`, and
the first data block is the first block of the root directory.

* `Represents.dirTree`: such a volume can be searched.
* `Represents.create`, `Represents.mkdir`, `Represents.remove`, `Represents.append`: what the calls
  do to a volume is an operation on the tree.
-/

namespace Gardos

open Fs Function

/-! ## Entries after an operation on the tree -/

namespace Tree

variable {t : Tree ℕ (List UInt8)} {d n m : ℕ} {k : Kind} {c : List UInt8}

theorem stepOf_of_ne (hdot : c ≠ dot) (hdotDot : c ≠ dotDot) : stepOf c = .down c := by
  rw [stepOf, if_neg hdot, if_neg hdotDot]

/-- The name that a directory has for its child is the only one. -/
theorem Wf.name_of_entries (h : t.Wf) (hc : t.child d c = some n) {c' : List UInt8}
    (he : t.entries d c' = some (n, k)) : c' = c := by
  have hlook := (entries_eq_some.1 he).1
  have hd := h.child_dir hc
  by_cases hdot : c' = dot
  · rw [hdot, show stepOf dot = .self from rfl, look_self hd] at hlook
    exact absurd (Option.some.inj hlook).symm (h.child_ne_self hc)
  by_cases hdotDot : c' = dotDot
  · rw [hdotDot, show stepOf dotDot = .up from rfl, look_up hd] at hlook
    exact absurd (Option.some.inj hlook) (h.child_ne_parent hc)
  rw [stepOf_of_ne hdot hdotDot, look_down hd] at hlook
  exact (h.unique hlook hc).2

theorem stepOf_eq_down {c' : List UInt8} (h : stepOf c = .down c') : c' = c := by
  unfold stepOf at h
  split at h
  · cases h
  · split at h
    · cases h
    · cases h
      rfl

/-- The entries of a directory whose targets keep their kinds. -/
theorem entries_congr {t' : Tree ℕ (List UInt8)} (hc : t'.look m (stepOf c) = t.look m (stepOf c))
    (hk : ∀ x, t.look m (stepOf c) = some x → t'.kind x = t.kind x) :
    t'.entries m c = t.entries m c := by
  unfold entries
  rw [hc]
  cases h : t.look m (stepOf c) with
  | none => rfl
  | some x =>
    change (t'.kind x).map _ = (t.kind x).map _
    rw [hk x h]

theorem Wf.entries_insert (h : t.Wf) (hd : t.kind d = some .dir) (hn : t.kind n = none)
    (hdot : c ≠ dot) (hdotDot : c ≠ dotDot) (hm : t.kind m = some .dir) :
    (t.insert d c n k).entries m =
      if m = d then update (t.entries d) c (some (n, k)) else t.entries m := by
  have hmn : m ≠ n := fun h => by rw [h, hn] at hm; cases hm
  have hm' : (t.insert d c n k).kind m = some .dir := by rwa [kind_insert_of_ne hmn]
  funext c'
  by_cases hnew : m = d ∧ c' = c
  · obtain ⟨rfl, rfl⟩ := hnew
    rw [if_pos rfl, update_self, entries_eq_some, stepOf_of_ne hdot hdotDot,
      look_down hm', child_insert, if_pos ⟨rfl, rfl⟩]
    exact ⟨rfl, update_self ..⟩
  · have hold : (t.insert d c n k).entries m c' = t.entries m c' := by
      refine entries_congr ?_ fun x hx => ?_
      · cases hs : stepOf c' with
        | self => rw [look_self hm', look_self hm]
        | up =>
          rw [look_up hm', look_up hm]
          exact congrArg some (update_of_ne hmn _ _)
        | down c'' =>
          obtain rfl := stepOf_eq_down hs
          rw [look_down hm', look_down hm, child_insert, if_neg hnew]
      · exact kind_insert_of_ne fun hxn => h.kind_of_look hx (hxn ▸ hn)
    rw [hold]
    by_cases hmd : m = d
    · rw [if_pos hmd, update_of_ne fun hcc => hnew ⟨hmd, hcc⟩, hmd]
    · rw [if_neg hmd]

/-- The entries of a new directory. -/
theorem Wf.entries_insert_self (h : t.Wf) (hd : t.kind d = some .dir) (hn : t.kind n = none) :
    (t.insert d c n .dir).entries n = newEntries n d := by
  have hdn : d ≠ n := fun h => by rw [h, hn] at hd; cases hd
  have hk : (t.insert d c n .dir).kind n = some .dir := update_self ..
  have hleaf : ∀ c', (t.insert d c n .dir).child n c' = none := fun c' => by
    rw [child_insert, if_neg fun h => hdn h.1.symm, h.child_eq_none (by rw [hn]; simp)]
  funext c'
  unfold newEntries
  by_cases hdot : c' = dot
  · rw [if_pos hdot, hdot, entries_eq_some]
    exact ⟨look_self hk, hk⟩
  · rw [if_neg hdot]
    by_cases hdotDot : c' = dotDot
    · rw [if_pos hdotDot, hdotDot, entries_eq_some, kind_insert_of_ne hdn]
      refine ⟨(look_up hk).trans ?_, hd⟩
      exact congrArg some (update_self ..)
    · unfold entries
      rw [if_neg hdotDot, stepOf_of_ne hdot hdotDot, look_down hk, hleaf]
      rfl

theorem Wf.entries_remove (h : t.Wf) (hc : t.child d c = some n)
    (hleaf : ∀ c', t.child n c' = none) (hdot : c ≠ dot) (hdotDot : c ≠ dotDot)
    (hm : t.kind m = some .dir) (hmn : m ≠ n) :
    (t.remove d c n).entries m =
      if m = d then update (t.entries d) c none else t.entries m := by
  have hm' : (t.remove d c n).kind m = some .dir := by rwa [kind_remove_of_ne hmn]
  have hnroot := h.child_ne_root hc
  -- the directory above `m` is not the one that goes, which has no children
  have hparent : t.parent m ≠ n := fun hp => by
    by_cases hmroot : m = t.root
    · rw [hmroot, h.root_parent] at hp
      exact hnroot hp.symm
    · obtain ⟨d', c', hc'⟩ := h.exists_child (by rw [hm]; exact Option.some_ne_none _) hmroot
      rw [h.parent_eq hc' hm] at hp
      rw [hp, hleaf] at hc'
      cases hc'
  funext c'
  by_cases hgone : m = d ∧ c' = c
  · obtain ⟨rfl, rfl⟩ := hgone
    rw [if_pos rfl, update_self]
    unfold entries
    rw [stepOf_of_ne hdot hdotDot, look_down hm', child_remove, if_pos ⟨rfl, rfl⟩]
    rfl
  · have hold : (t.remove d c n).entries m c' = t.entries m c' := by
      refine entries_congr ?_ fun x hx => ?_
      · cases hs : stepOf c' with
        | self => rw [look_self hm', look_self hm]
        | up =>
          rw [look_up hm', look_up hm]
          rfl
        | down c'' =>
          obtain rfl := stepOf_eq_down hs
          rw [look_down hm', look_down hm, child_remove, if_neg hgone]
      · refine kind_remove_of_ne fun hxn => ?_
        subst hxn
        cases hs : stepOf c' with
        | self =>
          rw [hs, look_self hm] at hx
          exact hmn (Option.some.inj hx)
        | up =>
          rw [hs, look_up hm] at hx
          exact hparent (Option.some.inj hx)
        | down c'' =>
          rw [hs, look_down hm] at hx
          obtain rfl := stepOf_eq_down hs
          exact hgone (h.unique hx hc)
    rw [hold]
    by_cases hmd : m = d
    · rw [if_pos hmd, update_of_ne fun hcc => hgone ⟨hmd, hcc⟩, hmd]
    · rw [if_neg hmd]

end Tree

namespace Fs

open Bytes Outcome

/-! ## The relation -/

/-- The volume holds the tree. -/
structure Represents (v : Volume) (t : Tree ℕ (List UInt8)) : Prop where
  wf : t.Wf
  root : t.root = 0
  contents : Contents v t.kind t.entries
  names : ∀ d c n, t.child d c = some n → IsName c ∧ c ≠ dot ∧ c ≠ dotDot
  first : (v.inode 0).iSectors 0 = v.geometry.sb.dataStartLba

section Represents

variable {v v₁ v₂ v₃ : Volume} {t : Tree ℕ (List UInt8)} {d n : ℕ} {c : List UInt8}
  {ino ino₁ : Inode} {e : DirEntry}

theorem Represents.dirOk (h : Represents v t) (hd : t.kind d = some .dir) :
    DirOk v (v.inode d) (t.entries d) := h.contents.ok d .dir hd

theorem Represents.fileOk (h : Represents v t) (hn : t.kind n = some .file) :
    FileOk v (v.inode n) := h.contents.ok n .file hn

theorem Represents.root_kind (h : Represents v t) : t.kind 0 = some .dir := by
  rw [← h.root]
  exact h.wf.root_kind

theorem Represents.dirTree (h : Represents v t) : DirTree v t where
  wf := h.wf
  root := h.root
  lt := h.contents.lt
  iNo := h.contents.iNo
  blocks _ hn := (h.dirOk hn).blocks
  holds _ hn := (h.dirOk hn).holds

/-- The first data block belongs to the root directory, and so to nobody else. -/
theorem Represents.owns_start (h : Represents v t) :
    OwnsBlock v.data (v.inode 0) v.geometry.sb.dataStartLba := by
  have hd := h.dirOk h.root_kind
  rw [← h.first, ← allBlocks_of_lt (d := v.data) (show 0 < 12 by omega)]
  refine ownsBlock_allBlocks (by omega) ?_
  rw [allBlocks_of_lt (by omega)]
  exact hd.first

theorem Represents.not_owns_start (h : Represents v t) (hn : t.kind n ≠ none) (h0 : n ≠ 0) :
    ¬ OwnsBlock v.data (v.inode n) v.geometry.sb.dataStartLba := fun ho =>
  h0 (h.contents.owned.disjoint n 0 _ hn (by rw [h.root_kind]; exact Option.some_ne_none _) ho
    h.owns_start)

/-! ## Removing an object -/

/-- **Removal.** An entry is taken out of its directory, and the object it names is released. -/
theorem Represents.remove (h : Represents v t) (hc : t.child d c = some n)
    (hleaf : ∀ c', t.child n c' = none) (hino : ino.Same (v.inode d))
    (hrem : DirRemove v ino e v₁ ino₁) (he : e.name = c) (hv₂ : v₂ = v₁.setInode d ino₁.stored)
    (hrel : Releases v₂ (v₂.inode n) v₃) : Represents (v₃.drop n) (t.remove d c n) := by
  subst he hv₂
  obtain ⟨-, hdot, hdotDot⟩ := h.names d _ n hc
  have hd := h.wf.child_dir hc
  have hn := h.wf.child_kind hc
  have hn0 : n ≠ 0 := h.root ▸ h.wf.child_ne_root hc
  have hdn : d ≠ n := fun hdn => by rw [hdn, hleaf] at hc; cases hc
  have hdir : DirOk v ino (t.entries d) := (h.dirOk hd).congr rfl rfl hino
  have hno : ino₁.stored.iNo = d := by
    change ino₁.iNo = d
    rw [hrem.iNo, hino.iNo, h.contents.iNo d (by rw [hd]; exact Option.some_ne_none _)]
  have hstep := (h.contents.step (k := .dir) (by rw [hd]; exact Option.some_ne_none _)
    (hrem.ownerStep hdir.blocks hdir.table) hino (Inode.same_stored ino₁) hno
    (hrem.dirOk hdir hdot hdotDot)).release
      (by rwa [update_of_ne hdn.symm]) hrel
  have hkind : update t.kind d (some .dir) = t.kind := by
    rw [← hd, update_eq_self]
  rw [hkind] at hstep
  refine ⟨h.wf.remove hc hleaf, h.root, hstep.congr (fun m => rfl) (fun m hm => ?_),
    fun d' c' n' hc' => ?_, ?_⟩
  · have hmn : m ≠ n := by
      rintro rfl
      rw [update_self] at hm
      cases hm
    rw [update_of_ne hmn] at hm
    rw [h.wf.entries_remove hc hleaf hdot hdotDot hm hmn, update_apply]
  · rw [Tree.child_remove] at hc'
    split at hc'
    · cases hc'
    · exact h.names d' c' n' hc'
  · have hi : (v₃.drop n).inode 0 = (v₁.setInode d ino₁.stored).inode 0 := by
      rw [Volume.drop, Volume.setInode_inode_of_ne _ _ hn0.symm, hrel.vol]
      rfl
    have hg : (v₃.drop n).geometry = v.geometry := by
      change v₃.geometry = _
      rw [hrel.vol]
      exact hrem.geometry
    rw [hi, hg]
    by_cases h0 : d = 0
    · subst h0
      rw [Volume.setInode_inode_self]
      change ino₁.iSectors 0 = _
      rw [hrem.iSectors_zero hdir.shape hdot, hino.iSectors 0 (by omega), h.first]
    · rw [Volume.setInode_inode_of_ne _ _ (Ne.symm h0), hrem.inode, h.first]

/-! ## Adding an object -/

/-- What an entry is added to does not depend on the inode table. -/
theorem DirInsert.setInode (h : DirInsert v ino e v₁ ino₁) (n : ℕ) (x : Inode) :
    DirInsert (v.setInode n x) ino e (v₁.setInode n x) ino₁ := by
  cases h with
  | slot k j hk hj hne hfree => exact .slot k j hk hj hne hfree
  | block k lba hk hz hfree => exact .block k lba hk hz ⟨hfree.start, hfree.lt, hfree.free⟩
  | table t lba hne hfull ht hfree =>
    exact .table t lba hne hfull ⟨ht.start, ht.lt, ht.free⟩ ⟨hfree.start, hfree.lt, hfree.free⟩

theorem Volume.setInode_comm (v : Volume) {m n : ℕ} (hmn : m ≠ n) (x y : Inode) :
    (v.setInode m x).setInode n y = (v.setInode n y).setInode m x :=
  Volume.ext rfl rfl rfl (update_comm hmn ..) rfl

/-- An entry for `n` has been added to directory `d`. -/
theorem Contents.insert {K : ℕ → Option Kind} {E : ℕ → List UInt8 → Option (ℕ × Kind)}
    (h : Contents v K E) (ha : v.Addressable) (hd : K d = some .dir)
    (hino : ino.Same (v.inode d)) (hsize : ino.iSize < 6048) (hc : IsName c) (hE : E d c = none)
    (hn : n < 4096) {k : Kind} (hins : DirInsert v ino (.ofName c n (Kind.type k)) v₁ ino₁) :
    Contents (v₁.setInode d ino₁.stored) K
      (update E d (update (E d) c (some (n, k)))) ∧
      ino₁.iSectors 0 = ino.iSectors 0 := by
  have hdir : DirOk v ino (E d) := DirOk.congr (h.ok d .dir hd) rfl rfl hino
  have hroom := hdir.directRoom hsize
  have hl : (DirEntry.ofName c n (Kind.type k)).Live := ofName_live (by cases k <;> decide)
  have hname := name_ofName hc n (Kind.type k)
  have hok := hins.dirOk ha hdir hroom hl (ofName_fits hn) (by rwa [hname]) (k := k) rfl
  rw [hname] at hok
  have hno : ino₁.stored.iNo = d := by
    change ino₁.iNo = d
    rw [hins.iNo, hino.iNo, h.iNo d (by rw [hd]; exact Option.some_ne_none _)]
  have hstep := h.step (k := .dir) (by rw [hd]; exact Option.some_ne_none _)
    (hins.ownerStep ha hdir.blocks hdir.table hroom) hino (Inode.same_stored ino₁) hno hok
  rw [← hd, update_eq_self] at hstep
  exact ⟨hstep, (hins.getEntry_first hdir.blocks hdir.first hroom
    (hdir.live_first (by omega) hdir.entry_dot (by decide))).1⟩

section Add

variable (h : Represents v t) (hd : t.kind d = some .dir) (ha : v.Addressable)
  (hc : t.child d c = none) (hname : IsName c) (hdot : c ≠ dot) (hdotDot : c ≠ dotDot)
  (hn : t.kind n = none) (hlt : n < 4096) (hino : ino.Same (v.inode d)) (hsize : ino.iSize < 6048)
include h hd hc hname hdot hdotDot hn hino

/-- The tree with the new object, once its contents are known. -/
theorem Represents.insert {k : Kind} {x : Inode} (hins : DirInsert v₂ ino e v₁ ino₁)
    (hv₂ : v₂.inode = v.inode) (hg : v₂.geometry = v.geometry)
    (hfirst : ino₁.iSectors 0 = ino.iSectors 0)
    (hcont : Contents ((v₁.setInode d ino₁.stored).setInode n x)
      (update t.kind n (some k)) (t.insert d c n k).entries) :
    Represents ((v₁.setInode d ino₁.stored).setInode n x) (t.insert d c n k) := by
  have hn0 : n ≠ 0 := fun h0 => by
    rw [h0, h.root_kind] at hn
    cases hn
  refine ⟨h.wf.insert k hd hc hn, h.root, hcont, fun d' c' n' hc' => ?_, ?_⟩
  · rw [Tree.child_insert] at hc'
    split at hc'
    · rename_i heq
      rw [heq.2]
      exact ⟨hname, hdot, hdotDot⟩
    · exact h.names d' c' n' hc'
  · rw [Volume.setInode_inode_of_ne _ _ hn0.symm]
    change _ = v₁.geometry.sb.dataStartLba
    rw [hins.geometry, hg]
    by_cases h0 : d = 0
    · subst h0
      rw [Volume.setInode_inode_self]
      change ino₁.iSectors 0 = _
      rw [hfirst, hino.iSectors 0 (by omega), h.first]
    · rw [Volume.setInode_inode_of_ne _ _ (Ne.symm h0), hins.inode, hv₂, h.first]

include ha hlt hsize

/-- **`file_create`** adds a file to the tree. -/
theorem Represents.create
    (hins : DirInsert (v.setAllocated n true) ino (.ofName c n .regular) v₁ ino₁) :
    Represents ((v₁.setInode d ino₁.stored).setInode n (inodeInit n)) (t.insert d c n .file) := by
  have hdn : d ≠ n := fun h => by rw [h, hn] at hd; cases hd
  have hcont := h.contents.add hn hlt
  have hE : t.entries d c = none := by
    rw [h.wf.entries_eq_none, Tree.stepOf_of_ne hdot hdotDot, Tree.look_down hd, hc]
  obtain ⟨hcont, hfirst⟩ := hcont.insert (k := .file) ⟨ha.pos, ha.lt⟩
    (by rwa [update_of_ne hdn]) (by rwa [Volume.setInode_inode_of_ne _ _ hdn]) hsize hname
    hE hlt (hins.setInode n (inodeInit n))
  rw [v₁.setInode_comm hdn.symm] at hcont
  refine h.insert hd hc hname hdot hdotDot hn hino hins rfl rfl hfirst
    (hcont.congr (fun _ => rfl) fun m hm => ?_)
  have hmn : m ≠ n := by
    rintro rfl
    rw [update_self] at hm
    cases hm
  rw [update_of_ne hmn] at hm
  rw [h.wf.entries_insert hd hn hdot hdotDot hm, update_apply]

/-- **`sys_mkdir`** adds a directory to the tree. -/
theorem Represents.mkdir {lba : ℕ} (hfree : v.Free lba)
    (hins : DirInsert (v.newDir n lba d) ino (.ofName c n .directory) v₁ ino₁) :
    Represents ((v₁.setInode d ino₁.stored).setInode n (newDirInode n lba).stored)
      (t.insert d c n .dir) := by
  have hdn : d ≠ n := fun h => by rw [h, hn] at hd; cases hd
  have hdlt := h.contents.lt d (by rw [hd]; exact Option.some_ne_none _)
  have hE : t.entries d c = none := by
    rw [h.wf.entries_eq_none, Tree.stepOf_of_ne hdot hdotDot, Tree.look_down hd, hc]
  -- the number is taken first, then the block with the two entries, then the entry in the parent
  set v₀ := (v.setAllocated n true).setInode n (inodeInit n)
  have hfree₀ : v₀.Free lba := ⟨hfree.start, hfree.lt, hfree.free⟩
  have ha₀ : v₀.Addressable := ⟨ha.pos, ha.lt⟩
  have hcont := (h.contents.add hn hlt).step (k := .dir) (n := n) (f := newEntries n d)
    (by rw [update_self]; exact Option.some_ne_none _)
    (ownerStep_newDir ha₀ hfree₀ n (newDirSector n d))
    (by rw [Volume.setInode_inode_self]; exact Inode.Same.refl _)
    (Inode.same_stored (newDirInode n lba)) rfl (dirOk_newDir ha₀ hfree₀ hlt hdlt)
  have hv : (((v₀.setUsed lba true).write lba (newDirSector n d)).setInode n
      (newDirInode n lba).stored) = (v.newDir n lba d).setInode n (newDirInode n lba).stored :=
    Volume.ext rfl rfl rfl (update_idem ..) rfl
  rw [hv, update_idem] at hcont
  obtain ⟨hcont, hfirst⟩ := hcont.insert (k := .dir) ⟨ha.pos, ha.lt⟩
    (by rwa [update_of_ne hdn])
    (by rw [Volume.setInode_inode_of_ne _ _ hdn]; exact hino) hsize hname
    (by rwa [update_of_ne hdn]) hlt (hins.setInode n (newDirInode n lba).stored)
  rw [v₁.setInode_comm hdn.symm, update_of_ne hdn] at hcont
  refine h.insert hd hc hname hdot hdotDot hn hino hins rfl rfl hfirst
    (hcont.congr (fun _ => rfl) fun m hm => ?_)
  by_cases hmn : m = n
  · rw [hmn, update_of_ne hdn.symm, update_self,
      h.wf.entries_insert_self hd hn]
  · rw [update_of_ne hmn] at hm
    rw [h.wf.entries_insert hd hn hdot hdotDot hm, update_apply, update_of_ne hmn]

end Add

/-! ## Writing to a file -/

/-- **`file_write`** leaves the tree as it is. -/
theorem Represents.append (h : Represents v t) (hn : t.kind n = some .file) (hlt : n < 256)
    (hino : ino.Same (v.inode n)) {bytes : List UInt8} (happ : Appends v ino bytes v₁ ino₁) :
    Represents v₁ t := by
  have hn0 : n ≠ 0 := fun h0 => by
    rw [h0, h.root_kind] at hn
    cases hn
  have hno : ino.iNo = n := by
    rw [hino.iNo, h.contents.iNo n (by rw [hn]; exact Option.some_ne_none _)]
  have hv : v₁ = { v with used := v₁.used, data := v₁.data }.setInode n ino₁.stored := by
    conv_lhs => rw [happ.vol, hno, Nat.mod_eq_of_lt hlt]
    rfl
  have hno₁ : ino₁.stored.iNo = n := by
    change ino₁.iNo = n
    rw [happ.inode]
    exact hno
  have hcont := h.contents.step (k := .file) (f := t.entries n)
    (by rw [hn]; exact Option.some_ne_none _) happ.ownerStep hino (Inode.same_stored ino₁) hno₁
    (happ.file.congr rfl rfl (Inode.Same.refl _))
  rw [← hn, update_eq_self, update_eq_self, ← hv] at hcont
  refine ⟨h.wf, h.root, hcont, h.names, ?_⟩
  rw [hv, Volume.setInode_inode_of_ne _ _ hn0.symm]
  exact h.first

end Represents

end Fs

end Gardos
