import Gardos.Fs.Insert
import Gardos.Fs.Release

/-!
# The contents of a volume

A volume holds, for each allocated inode number, a well-formed file or a well-formed directory,
and each block in use belongs to exactly one of them. `Contents` says this for a given assignment
of kinds to numbers and of entries to directories, without asking that the directories form a
tree. It is kept when the blocks of one object change (`Contents.step`), when a number is taken
(`Contents.add`), and when an object is released (`Contents.release`).
-/

namespace Gardos.Fs

open Bytes Outcome Function

/-! ## Well-formed objects -/

/-- A well-formed file, or a well-formed directory with the entries `f`. -/
def ObjOk (v : Volume) (ino : Inode) (k : Kind) (f : List UInt8 → Option (ℕ × Kind)) : Prop :=
  match k with
  | .file => FileOk v ino
  | .dir => DirOk v ino f

section Object

variable {v v' : Volume} {ino ino' : Inode} {k : Kind} {f : List UInt8 → Option (ℕ × Kind)}

theorem FileOk.congr (h : FileOk v ino) (hu : v'.used = v.used) (hd : v'.data = v.data)
    (hs : ino'.Same ino) : FileOk v' ino' := by
  have hall : ∀ i, allBlocks v'.data ino' i = allBlocks v.data ino i := fun i => by
    rw [hd]
    exact allBlocks_congr hs.iSectors fun _ => rfl
  refine ⟨h.blocks.congr hu (hs.iSectors 12 (by omega)) fun i _ => hall i, ?_⟩
  rcases h.shape with ⟨h0, hz⟩ | hH
  · exact Or.inl ⟨hs.iSize.trans h0, fun i hi => (hs.iSectors i hi).trans (hz i hi)⟩
  · refine Or.inr ⟨fun i hi => ?_, ?_⟩
    · rw [hall, hs.iSize]
      exact hH.iff i hi
    · rw [hs.iSectors 12 (by omega), hs.iSize]
      exact hH.table

theorem DirOk.congr (h : DirOk v ino f) (hu : v'.used = v.used) (hd : v'.data = v.data)
    (hs : ino'.Same ino) : DirOk v' ino' f := by
  have hall : ∀ i, allBlocks v'.data ino' i = allBlocks v.data ino i := fun i => by
    rw [hd]
    exact allBlocks_congr hs.iSectors fun _ => rfl
  have h0 : ino'.iSectors 0 = ino.iSectors 0 := hs.iSectors 0 (by omega)
  refine ⟨h.blocks.congr hu (hs.iSectors 12 (by omega)) fun i _ => hall i,
    (hs.iSectors 12 (by omega)).trans h.table,
    h.holds.congr (fun i _ => hall i) fun i _ _ => by rw [hd], ?_, ?_, ?_, ?_⟩
  · rw [hs.iSize, h.size, liveEntries_congr hs.iSectors (fun _ => by rw [hd])
      fun i _ _ => by rw [hd]]
  · rw [h0]
    exact h.first
  · rw [hd, h0]
    exact h.entry_dot
  · rw [hd, h0]
    exact h.entry_dotDot

theorem ObjOk.congr (h : ObjOk v ino k f) (hu : v'.used = v.used) (hd : v'.data = v.data)
    (hs : ino'.Same ino) : ObjOk v' ino' k f := by
  cases k with
  | file => exact FileOk.congr h hu hd hs
  | dir => exact DirOk.congr h hu hd hs

theorem Untouched.objOk (h : Untouched v v' ino) (ho : ObjOk v ino k f) : ObjOk v' ino k f := by
  cases k with
  | file => exact h.fileOk ho
  | dir => exact h.dirOk ho

end Object

/-! ## The invariant -/

/-- The objects on a volume: their kinds, and the entries of the directories. -/
structure Contents (v : Volume) (K : ℕ → Option Kind)
    (E : ℕ → List UInt8 → Option (ℕ × Kind)) : Prop where
  lt : ∀ n, K n ≠ none → n < 4096
  alloc : ∀ n, v.allocated n = true ↔ K n ≠ none
  iNo : ∀ n, K n ≠ none → (v.inode n).iNo = n
  ok : ∀ n k, K n = some k → ObjOk v (v.inode n) k (E n)
  owned : Owned v fun n => K n ≠ none

theorem Owned.congr {v v' : Volume} {S S' : ℕ → Prop} (h : Owned v S)
    (hg : v'.geometry = v.geometry) (hu : v'.used = v.used) (hd : v'.data = v.data)
    (hS : ∀ n, S' n ↔ S n) (hi : ∀ n, S n → v'.inode n = v.inode n) : Owned v' S' := by
  refine ⟨fun n hn => ?_, fun b hend hb => ?_, fun m n b hm hn hbm hbn => ?_⟩
  · rw [hi n ((hS n).1 hn)]
    exact (h.blocks n ((hS n).1 hn)).congr hu rfl fun k _ => by rw [hd]
  · rw [hu] at hb
    obtain ⟨n, hn, ho⟩ := h.owner b (hg ▸ hend) hb
    exact ⟨n, (hS n).2 hn, by rwa [hi n hn, hd]⟩
  · rw [hS] at hm hn
    rw [hi m hm, hd] at hbm
    rw [hi n hn, hd] at hbn
    exact h.disjoint m n b hm hn hbm hbn

/-- An inode without blocks may join. -/
theorem Owned.add {v : Volume} {S : ℕ → Prop} {n : ℕ} (h : Owned v S)
    (hz : ∀ k < 13, (v.inode n).iSectors k = 0) : Owned v fun m => m = n ∨ S m := by
  have hnone := not_ownsBlock_of_zero (d := v.data) hz
  refine ⟨fun m hm => ?_, fun b hend hb => ?_, fun m₁ m₂ b h₁ h₂ hb₁ hb₂ => ?_⟩
  · rcases hm with rfl | hm
    · have hall : ∀ i, allBlocks v.data (v.inode m) i = 0 := fun i => by
        by_contra hi
        by_cases h140 : i < 140
        · exact hnone _ (ownsBlock_allBlocks h140 hi)
        · exact hi (allBlocks_of_no_table (hz 12 (by omega)) (by omega))
      exact ⟨fun i _ h0 => absurd (hall i) h0, fun h0 => absurd (hz 12 (by omega)) h0,
        fun i _ _ _ h0 => absurd (hall i) h0, fun _ _ h0 => absurd (hz 12 (by omega)) h0⟩
    · exact h.blocks m hm
  · obtain ⟨m, hm, ho⟩ := h.owner b hend hb
    exact ⟨m, Or.inr hm, ho⟩
  · rcases h₁ with rfl | h₁
    · exact absurd hb₁ (hnone b)
    · rcases h₂ with rfl | h₂
      · exact absurd hb₂ (hnone b)
      · exact h.disjoint m₁ m₂ b h₁ h₂ hb₁ hb₂

/-- An inode without blocks may leave. -/
theorem Owned.remove {v : Volume} {S S' : ℕ → Prop} {n : ℕ} (h : Owned v S)
    (hz : ∀ k < 13, (v.inode n).iSectors k = 0) (hS : ∀ m, S' m ↔ S m ∧ m ≠ n) : Owned v S' := by
  refine ⟨fun m hm => h.blocks m ((hS m).1 hm).1, fun b hend hb => ?_, fun m₁ m₂ b h₁ h₂ hb₁ hb₂ =>
    h.disjoint m₁ m₂ b ((hS m₁).1 h₁).1 ((hS m₂).1 h₂).1 hb₁ hb₂⟩
  obtain ⟨m, hm, ho⟩ := h.owner b hend hb
  refine ⟨m, (hS m).2 ⟨hm, ?_⟩, ho⟩
  rintro rfl
  exact not_ownsBlock_of_zero hz b ho

section Contents

variable {v v' : Volume} {K K' : ℕ → Option Kind} {E E' : ℕ → List UInt8 → Option (ℕ × Kind)}
  {n : ℕ} {k : Kind} {ino ino' x : Inode} {f : List UInt8 → Option (ℕ × Kind)}

theorem Contents.congr (h : Contents v K E) (hK : ∀ m, K' m = K m)
    (hE : ∀ m, K m = some .dir → E' m = E m) : Contents v K' E' := by
  obtain rfl : K' = K := funext hK
  refine ⟨h.lt, h.alloc, h.iNo, fun m k hm => ?_, h.owned⟩
  have ho := h.ok m k hm
  cases k with
  | file => exact ho
  | dir =>
    rw [hE m hm]
    exact ho

/-- **The blocks of one object change**, and with them perhaps what it is. -/
theorem Contents.step (h : Contents v K E) (hn : K n ≠ none) (hs : OwnerStep v ino v' ino')
    (hino : ino.Same (v.inode n)) (hx : x.Same ino') (hno : x.iNo = n)
    (hobj : ObjOk v' ino' k f) :
    Contents (v'.setInode n x) (update K n (some k)) (update E n f) := by
  have hK : ∀ m, update K n (some k) m ≠ none ↔ K m ≠ none := fun m => by
    by_cases hm : m = n
    · subst hm
      simp [hn]
    · rw [update_of_ne hm]
  have hother : ∀ m, m ≠ n → (v'.setInode n x).inode m = v.inode m := fun m hm => by
    rw [Volume.setInode_inode_of_ne _ _ hm, hs.inode_eq]
  refine ⟨fun m hm => h.lt m ((hK m).1 hm), fun m => ?_, fun m hm => ?_, fun m k' hm => ?_,
    (h.owned.step hn hs hino.iSectors hx.iSectors).congr rfl rfl rfl hK fun _ _ => rfl⟩
  · change v'.allocated m = true ↔ _
    rw [hs.vol, hK]
    exact h.alloc m
  · by_cases hmn : m = n
    · rw [hmn, Volume.setInode_inode_self, hno]
    · rw [hother m hmn]
      exact h.iNo m ((hK m).1 hm)
  · by_cases hmn : m = n
    · subst hmn
      rw [update_self, Option.some.injEq] at hm
      subst hm
      rw [Volume.setInode_inode_self, update_self]
      exact hobj.congr rfl rfl hx
    · rw [update_of_ne hmn] at hm ⊢
      rw [hother m hmn]
      have hunt := h.owned.untouched hn hs hino.iSectors
        (by rw [hm]; exact Option.some_ne_none _) hmn
      exact (hunt.objOk (h.ok m k' hm)).congr rfl rfl (Inode.Same.refl _)

/-- **A number is taken** for a file without blocks. -/
theorem Contents.add (h : Contents v K E) (hn : K n = none) (hlt : n < 4096) :
    Contents ((v.setAllocated n true).setInode n (inodeInit n))
      (update K n (some .file)) E := by
  set v' := (v.setAllocated n true).setInode n (inodeInit n) with hv'
  have hself : v'.inode n = inodeInit n := Volume.setInode_inode_self ..
  have hother : ∀ m, m ≠ n → v'.inode m = v.inode m := fun m hm =>
    Volume.setInode_inode_of_ne _ _ hm
  have hne : ∀ m, K m ≠ none → m ≠ n := fun m hm h => hm (h ▸ hn)
  have hK : ∀ m, update K n (some Kind.file) m ≠ none ↔ m = n ∨ K m ≠ none := fun m => by
    by_cases hm : m = n
    · simp [hm]
    · simp [hm]
  refine ⟨fun m hm => ?_, fun m => ?_, fun m hm => ?_, fun m k' hm => ?_, ?_⟩
  · rcases (hK m).1 hm with rfl | hm
    · exact hlt
    · exact h.lt m hm
  · change update v.allocated n true m = true ↔ _
    rw [hK]
    by_cases hm : m = n
    · simp [hm]
    · simp only [update_of_ne hm, hm, false_or]
      exact h.alloc m
  · rcases (hK m).1 hm with rfl | hm
    · rw [hself]
      rfl
    · rw [hother m (hne m hm)]
      exact h.iNo m hm
  · by_cases hmn : m = n
    · subst hmn
      rw [update_self, Option.some.injEq] at hm
      subst hm
      rw [hself]
      exact fileOk_inodeInit v' m
    · rw [update_of_ne hmn] at hm
      rw [hother m hmn]
      exact (h.ok m k' hm).congr rfl rfl (Inode.Same.refl _)
  · have hold : Owned v' fun m => K m ≠ none :=
      h.owned.congr rfl rfl rfl (fun _ => Iff.rfl) fun m hm => hother m (hne m hm)
    refine (hold.add (n := n) fun i _ => ?_).congr rfl rfl rfl hK fun _ _ => rfl
    rw [hself]
    rfl

/-- A number whose inode has no blocks is given back. -/
theorem Contents.drop (h : Contents v K E) (hz : ∀ i < 13, (v.inode n).iSectors i = 0) :
    Contents (v.drop n) (update K n none) E := by
  have hK : ∀ m, update K n none m ≠ none ↔ K m ≠ none ∧ m ≠ n := fun m => by
    by_cases hm : m = n
    · simp [hm]
    · simp [hm]
  have hother : ∀ m, m ≠ n → (v.drop n).inode m = v.inode m := fun m hm =>
    Volume.setInode_inode_of_ne _ _ hm
  refine ⟨fun m hm => h.lt m ((hK m).1 hm).1, fun m => ?_, fun m hm => ?_, fun m k' hm => ?_, ?_⟩
  · change update v.allocated n false m = true ↔ _
    rw [hK]
    by_cases hm : m = n
    · simp [hm]
    · simp only [update_of_ne hm, ne_eq, hm, not_false_eq_true, and_true]
      exact h.alloc m
  · obtain ⟨hm, hmn⟩ := (hK m).1 hm
    rw [hother m hmn]
    exact h.iNo m hm
  · have hmn : m ≠ n := by
      rintro rfl
      simp at hm
    rw [update_of_ne hmn] at hm
    rw [hother m hmn]
    exact (h.ok m k' hm).congr rfl rfl (Inode.Same.refl _)
  · exact (h.owned.remove hz hK).congr rfl rfl rfl (fun _ => Iff.rfl) fun m hm =>
      hother m ((hK m).1 hm).2

/-- **An object is released.** -/
theorem Contents.release (h : Contents v K E) (hn : K n ≠ none)
    (hrel : Releases v (v.inode n) v') : Contents (v'.drop n) (update K n none) E := by
  have howner : OwnerStep v (v.inode n) v' (inodeInit n) := hrel.ownerStep fun _ _ => rfl
  have hstep := h.step (x := inodeInit n) (f := E n) (k := .file) hn howner (Inode.Same.refl _)
    (Inode.Same.refl _) rfl (fileOk_inodeInit v' n)
  have hdrop := hstep.drop (n := n) fun i _ => by rw [Volume.setInode_inode_self]; rfl
  rw [update_eq_self, update_idem] at hdrop
  have hv : (v'.setInode n (inodeInit n)).drop n = v'.drop n := by
    refine Volume.ext rfl rfl rfl ?_ rfl
    exact update_idem ..
  rwa [hv] at hdrop

end Contents

end Gardos.Fs
