import Gardos.Fs.Represents

/-!
# The names on a disk

What the directories of a volume say, read off their blocks: the entries of a directory besides
`"."` and `".."` (`namesIn`), and the directories that can be reached from inode 0 along such
entries (`ReachDir`). On a volume that holds a tree they are the children and the directories of the
tree, so every inode in use but the root has exactly one name (`Represents.named`), and no entry
names an inode that is not in use (`Represents.entry_allocated`).
-/

namespace Gardos.Fs

open Bytes Outcome

/-- The entries of directory `d` other than `"."` and `".."`. -/
def namesIn (v : Volume) (d : ℕ) : List DirEntry :=
  (liveEntries v.data (v.inode d)).filter fun e => e.name ≠ dot ∧ e.name ≠ dotDot

/-- The directories below the root. -/
inductive ReachDir (v : Volume) : ℕ → Prop
  | root : ReachDir v 0
  | child {d : ℕ} {e : DirEntry} : ReachDir v d → e ∈ namesIn v d →
      e.fType = FileTypes.directory.code → ReachDir v e.iNo

/-- Directory `d` has an entry that maps the name `c` to inode `n`. -/
def NameEntry (v : Volume) (d : ℕ) (c : List UInt8) (n : ℕ) : Prop :=
  ReachDir v d ∧ ∃ e ∈ namesIn v d, e.name = c ∧ e.iNo = n

section Names

variable {v : Volume} {t : Tree ℕ (List UInt8)} {d n : ℕ} {c : List UInt8} {e : DirEntry}

theorem mem_namesIn : e ∈ namesIn v d ↔
    e ∈ liveEntries v.data (v.inode d) ∧ e.name ≠ dot ∧ e.name ≠ dotDot := by
  rw [namesIn, List.mem_filter, decide_eq_true_eq]

/-- An entry of a directory names a child. -/
theorem Represents.child_of_mem (h : Represents v t) (hd : t.kind d = some .dir)
    (he : e ∈ namesIn v d) :
    t.child d e.name = some e.iNo ∧ ∃ k, t.kind e.iNo = some k ∧ e.fType = (Kind.type k).code := by
  obtain ⟨hlive, hdot, hdotDot⟩ := mem_namesIn.1 he
  obtain ⟨k, hk, htype⟩ := (h.dirOk hd).holds.mem e hlive
  obtain ⟨hlook, hkind⟩ := Tree.entries_eq_some.1 hk
  rw [Tree.stepOf_of_ne hdot hdotDot, Tree.look_down hd] at hlook
  exact ⟨hlook, k, hkind, htype⟩

/-- A child is named by an entry. -/
theorem Represents.exists_mem (h : Represents v t) (hc : t.child d c = some n) :
    ∃ e ∈ namesIn v d, e.name = c ∧ e.iNo = n := by
  obtain ⟨-, hdot, hdotDot⟩ := h.names d c n hc
  have hd := h.wf.child_dir hc
  have hentry : t.entries d c ≠ none := by
    rw [Ne, h.wf.entries_eq_none, Tree.stepOf_of_ne hdot hdotDot, Tree.look_down hd, hc]
    exact Option.some_ne_none n
  obtain ⟨e, he, rfl⟩ := (h.dirOk hd).holds.find c hentry
  have hmem : e ∈ namesIn v d := mem_namesIn.2 ⟨he, hdot, hdotDot⟩
  refine ⟨e, hmem, rfl, ?_⟩
  exact Option.some.inj ((h.child_of_mem hd hmem).1.symm.trans hc)

/-- The reachable directories are the directories of the tree. -/
theorem Represents.reachDir_iff (h : Represents v t) : ReachDir v d ↔ t.kind d = some .dir := by
  constructor
  · intro hr
    induction hr with
    | root => exact h.root_kind
    | child _ he htype ih =>
      obtain ⟨-, k, hk, hcode⟩ := h.child_of_mem ih he
      cases k with
      | file =>
        rw [hcode] at htype
        exact absurd htype (by decide)
      | dir => exact hk
  · intro hk
    have hreach : ∀ {n}, t.Reach n → t.kind n = some .dir → ReachDir v n := by
      intro n hn
      induction hn with
      | root =>
        intro _
        rw [h.root]
        exact .root
      | @child d c n _ hc ih =>
        intro hkn
        obtain ⟨e, he, -, rfl⟩ := h.exists_mem hc
        obtain ⟨-, k, hke, hcode⟩ := h.child_of_mem (h.wf.child_dir hc) he
        obtain rfl := Option.some.inj (hke.symm.trans hkn)
        exact .child (ih (h.wf.child_dir hc)) he hcode
    exact hreach (h.wf.reach (ne_none_of_eq_some hk)) hk

/-- **The names on the disk** are those of the tree. -/
theorem Represents.nameEntry_iff (h : Represents v t) :
    NameEntry v d c n ↔ t.child d c = some n := by
  constructor
  · rintro ⟨hd, e, he, rfl, rfl⟩
    exact (h.child_of_mem (h.reachDir_iff.1 hd) he).1
  · intro hc
    exact ⟨h.reachDir_iff.2 (h.wf.child_dir hc), h.exists_mem hc⟩

/-- **No entry names an inode that is not in use**, `"."` and `".."` included. -/
theorem Represents.entry_allocated (h : Represents v t) (hd : ReachDir v d)
    (he : e ∈ liveEntries v.data (v.inode d)) : v.allocated e.iNo = true := by
  obtain ⟨k, hk, -⟩ := (h.dirOk (h.reachDir_iff.1 hd)).holds.mem e he
  rw [h.contents.alloc, (Tree.entries_eq_some.1 hk).2]
  exact Option.some_ne_none k

/-- The entries of a directory that name inode `n`: one for a child, and no others. -/
theorem Represents.filter_namesIn (h : Represents v t) (hc : t.child d c = some n) :
    ∃ e, (namesIn v d).filter (fun e => e.iNo = n) = [e] := by
  have hd := h.wf.child_dir hc
  obtain ⟨e, he, rfl, rfl⟩ := h.exists_mem hc
  refine ⟨e, List.perm_singleton.1 ((List.perm_ext_iff_of_nodup ?_ (List.nodup_singleton e)).2
    fun e' => ?_)⟩
  · exact ((List.Nodup.of_map _ (h.dirOk hd).holds.nodup).filter _).filter _
  rw [List.mem_filter, decide_eq_true_eq, List.mem_singleton]
  refine ⟨fun ⟨he', hno⟩ => ?_, fun heq => by rw [heq]; exact ⟨he, rfl⟩⟩
  have hchild := (h.child_of_mem hd he').1
  rw [hno] at hchild
  have hname := (h.wf.unique hchild hc).2
  exact List.inj_on_of_nodup_map (h.dirOk hd).holds.nodup (mem_namesIn.1 he').1
    (mem_namesIn.1 he).1 hname

/-- **An inode is in use exactly if it is the root or has one name**, in one directory. -/
theorem Represents.named (h : Represents v t) (n : ℕ) : v.allocated n = true ↔
    n = 0 ∨ ∃ d, ReachDir v d ∧ (∃ e, (namesIn v d).filter (fun e => e.iNo = n) = [e]) ∧
      ∀ d', ReachDir v d' → d' ≠ d → ∀ e ∈ namesIn v d', e.iNo ≠ n := by
  rw [h.contents.alloc]
  constructor
  · intro hn
    by_cases hroot : n = 0
    · exact Or.inl hroot
    obtain ⟨d, c, hc⟩ := h.wf.exists_child hn (by rwa [h.root])
    refine Or.inr ⟨d, h.reachDir_iff.2 (h.wf.child_dir hc), h.filter_namesIn hc,
      fun d' hd' hne e he hno => hne ?_⟩
    have hchild := (h.child_of_mem (h.reachDir_iff.1 hd') he).1
    rw [hno] at hchild
    exact (h.wf.unique hchild hc).1
  · rintro (rfl | ⟨d, hd, ⟨e, he⟩, -⟩)
    · rw [h.root_kind]
      exact Option.some_ne_none _
    · have hmem : e ∈ (namesIn v d).filter (fun e => e.iNo = n) := by
        rw [he]
        exact List.mem_singleton_self e
      obtain ⟨hmem, hno⟩ := List.mem_filter.1 hmem
      rw [← of_decide_eq_true hno]
      exact h.wf.child_kind (h.child_of_mem (h.reachDir_iff.1 hd) hmem).1

end Names

end Gardos.Fs
