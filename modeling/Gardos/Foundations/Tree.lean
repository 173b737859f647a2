import Mathlib.Logic.Function.Basic
import Mathlib.Data.Option.Basic
import Mathlib.Data.List.Induction

/-!
# Trees of named objects

A tree of files and directories, as a user of a file system sees it: every object has a number,
and every directory maps names to objects. The entries for the directory itself and for its parent
are not among the names; a path may use them as the steps `self` and `up`.

* `Tree.Wf`: every object but the root is named by exactly one entry of one directory, and all of
  them can be reached from the root.
* `Tree.insert`, `Tree.remove`: a new leaf, and a leaf taken away; both keep `Tree.Wf`.
* `Tree.walk`: the object that a path names.
* `Tree.At`, `Tree.canon`: the path of names to an object, which is unique, and how to get it from
  any path to the object (`Tree.Wf.at_canon`).
-/

namespace Gardos

open Function

/-- What an object of a tree is. -/
inductive Kind
  | file
  | dir
  deriving DecidableEq

/-- A tree of objects with numbers in `ι` and names in `α`. The parent matters for directories
only. -/
@[ext] structure Tree (ι α : Type*) where
  root : ι
  kind : ι → Option Kind
  parent : ι → ι
  child : ι → α → Option ι

/-- One step of a path. -/
inductive PathStep (α : Type*)
  | self
  | up
  | down (name : α)
  deriving DecidableEq

namespace Tree

variable {ι α : Type*} {t : Tree ι α} {d n : ι} {c : α}

/-- The objects that can be reached from the root. -/
inductive Reach (t : Tree ι α) : ι → Prop
  | root : t.Reach t.root
  | child {d : ι} {c : α} {n : ι} : t.Reach d → t.child d c = some n → t.Reach n

/-- A well-formed tree. -/
structure Wf (t : Tree ι α) : Prop where
  root_kind : t.kind t.root = some .dir
  root_parent : t.parent t.root = t.root
  child_dir : ∀ {d c n}, t.child d c = some n → t.kind d = some .dir
  child_ne_root : ∀ {d c n}, t.child d c = some n → n ≠ t.root
  child_kind : ∀ {d c n}, t.child d c = some n → t.kind n ≠ none
  unique : ∀ {d c d' c' n}, t.child d c = some n → t.child d' c' = some n → d = d' ∧ c = c'
  parent_eq : ∀ {d c n}, t.child d c = some n → t.kind n = some .dir → t.parent n = d
  reach : ∀ {n}, t.kind n ≠ none → t.Reach n

/-- Every object but the root has a name. -/
theorem Wf.exists_child (h : t.Wf) (hn : t.kind n ≠ none) (hroot : n ≠ t.root) :
    ∃ d c, t.child d c = some n := by
  cases h.reach hn with
  | root => exact absurd rfl hroot
  | child _ hc => exact ⟨_, _, hc⟩

theorem Wf.child_eq_none (h : t.Wf) (hd : t.kind d ≠ some .dir) (c : α) : t.child d c = none := by
  by_contra hc
  obtain ⟨n, hn⟩ := Option.ne_none_iff_exists'.1 hc
  exact hd (h.child_dir hn)

/-- The parent of a directory is a directory. -/
theorem Wf.parent_kind (h : t.Wf) (hn : t.kind n = some .dir) :
    t.kind (t.parent n) = some .dir := by
  by_cases hroot : n = t.root
  · rw [hroot, h.root_parent]
    exact h.root_kind
  · obtain ⟨d, c, hc⟩ := h.exists_child (by rw [hn]; exact Option.some_ne_none _) hroot
    rw [h.parent_eq hc hn]
    exact h.child_dir hc

/-! ## The tree with only a root -/

section Single

variable [DecidableEq ι]

/-- The tree with only a root directory. -/
def single (r : ι) : Tree ι α where
  root := r
  kind := update (fun _ => none) r (some .dir)
  parent _ := r
  child _ _ := none

theorem kind_single_self (r : ι) : (single r : Tree ι α).kind r = some .dir := by simp [single]

theorem kind_single {r : ι} : (single r : Tree ι α).kind n ≠ none ↔ n = r := by
  by_cases hn : n = r
  · simp [single, hn]
  · simp [single, hn]

theorem wf_single (r : ι) : (single r : Tree ι α).Wf where
  root_kind := kind_single_self r
  root_parent := rfl
  child_dir h := by cases h
  child_ne_root h := by cases h
  child_kind h := by cases h
  unique h := by cases h
  parent_eq h := by cases h
  reach hn := by
    rw [kind_single.1 hn]
    exact .root

end Single

/-! ## Adding and removing a leaf -/

section Update

variable [DecidableEq ι] [DecidableEq α]

/-- A new object `n` under the name `c` in directory `d`. -/
def insert (t : Tree ι α) (d : ι) (c : α) (n : ι) (k : Kind) : Tree ι α where
  root := t.root
  kind := update t.kind n (some k)
  parent := update t.parent n d
  child := update t.child d (update (t.child d) c (some n))

/-- Object `n`, which directory `d` has under the name `c`, is taken away. -/
def remove (t : Tree ι α) (d : ι) (c : α) (n : ι) : Tree ι α :=
  { t with
    kind := update t.kind n none
    child := update t.child d (update (t.child d) c none) }

theorem child_insert {k : Kind} {d' : ι} {c' : α} :
    (t.insert d c n k).child d' c' = if d' = d ∧ c' = c then some n else t.child d' c' := by
  simp only [insert, update_apply]
  by_cases hd : d' = d
  · subst hd
    by_cases hc : c' = c <;> simp [hc]
  · simp [hd]

theorem child_remove {d' : ι} {c' : α} :
    (t.remove d c n).child d' c' = if d' = d ∧ c' = c then none else t.child d' c' := by
  simp only [remove, update_apply]
  by_cases hd : d' = d
  · subst hd
    by_cases hc : c' = c <;> simp [hc]
  · simp [hd]

theorem kind_insert_of_ne {k : Kind} {m : ι} (h : m ≠ n) :
    (t.insert d c n k).kind m = t.kind m := update_of_ne h _ _

theorem kind_remove_of_ne {m : ι} (h : m ≠ n) : (t.remove d c n).kind m = t.kind m :=
  update_of_ne h _ _

theorem Reach.insert {k : Kind} (hc : t.child d c = none) {m : ι} (hm : t.Reach m) :
    (t.insert d c n k).Reach m := by
  induction hm with
  | root => exact .root
  | @child d' c' m' _ hm' ih =>
    refine .child ih (c := c') ?_
    rw [child_insert, if_neg]
    · exact hm'
    · rintro ⟨rfl, rfl⟩
      rw [hc] at hm'
      cases hm'

/-- A new leaf keeps the tree well formed. -/
theorem Wf.insert (h : t.Wf) (k : Kind) (hd : t.kind d = some .dir) (hc : t.child d c = none)
    (hn : t.kind n = none) : (t.insert d c n k).Wf := by
  have hdn : d ≠ n := fun he => by
    rw [← he, hd] at hn
    cases hn
  have hrn : t.root ≠ n := fun he => by
    rw [← he, h.root_kind] at hn
    cases hn
  -- an entry of the new tree is the new one or an old one, which names an old object
  have hcase : ∀ {d' c' m}, (t.insert d c n k).child d' c' = some m →
      (d' = d ∧ c' = c ∧ m = n) ∨ t.child d' c' = some m ∧ m ≠ n := by
    intro d' c' m hm
    rw [child_insert] at hm
    split at hm
    · rename_i heq
      exact Or.inl ⟨heq.1, heq.2, (Option.some.inj hm).symm⟩
    · exact Or.inr ⟨hm, fun he => h.child_kind hm (he ▸ hn)⟩
  refine ⟨?_, ?_, fun {d' c' m} hm => ?_, fun {d' c' m} hm => ?_, fun {d' c' m} hm => ?_,
    fun {d₁ c₁ d₂ c₂ m} h₁ h₂ => ?_, fun {d' c' m} hm hk => ?_, fun {m} hm => ?_⟩
  · rw [kind_insert_of_ne (show (t.insert d c n k).root ≠ n from hrn)]
    exact h.root_kind
  · exact (update_of_ne hrn _ _).trans h.root_parent
  · rcases hcase hm with ⟨rfl, -, -⟩ | ⟨hm, -⟩
    · rw [kind_insert_of_ne hdn]
      exact hd
    · have hk := h.child_dir hm
      rw [kind_insert_of_ne fun he => ?_]
      · exact hk
      · rw [he, hn] at hk
        cases hk
  · rcases hcase hm with ⟨-, -, rfl⟩ | ⟨hm, -⟩
    · exact hrn.symm
    · exact h.child_ne_root hm
  · rcases hcase hm with ⟨-, -, rfl⟩ | ⟨hm, hne⟩
    · simp [Tree.insert]
    · rw [kind_insert_of_ne hne]
      exact h.child_kind hm
  · rcases hcase h₁ with ⟨rfl, rfl, rfl⟩ | ⟨h₁, hne₁⟩ <;> rcases hcase h₂ with ⟨rfl, rfl, he⟩ |
      ⟨h₂, hne₂⟩
    · exact ⟨rfl, rfl⟩
    · exact absurd rfl hne₂
    · exact absurd he hne₁
    · exact h.unique h₁ h₂
  · rcases hcase hm with ⟨rfl, -, rfl⟩ | ⟨hm, hne⟩
    · exact update_self ..
    · rw [kind_insert_of_ne hne] at hk
      exact (update_of_ne hne _ _).trans (h.parent_eq hm hk)
  · by_cases hmn : m = n
    · subst hmn
      refine .child ((h.reach ?_).insert hc) (c := c) (by rw [child_insert, if_pos ⟨rfl, rfl⟩])
      rw [hd]
      exact Option.some_ne_none _
    · rw [kind_insert_of_ne hmn] at hm
      exact (h.reach hm).insert hc

theorem Reach.remove (hc : t.child d c = some n) (hleaf : ∀ c', t.child n c' = none)
    {m : ι} (hm : t.Reach m) (hne : m ≠ n) : (t.remove d c n).Reach m := by
  induction hm with
  | root => exact .root
  | @child d' c' m' _ hm' ih =>
    -- the leaf is on no path to another object
    have hd' : d' ≠ n := fun he => by
      rw [he, hleaf] at hm'
      cases hm'
    refine .child (ih hd') (c := c') ?_
    rw [child_remove, if_neg]
    · exact hm'
    · rintro ⟨rfl, rfl⟩
      exact hne (Option.some.inj (hm'.symm.trans hc))

/-- Without a leaf the tree stays well formed. -/
theorem Wf.remove (h : t.Wf) (hc : t.child d c = some n) (hleaf : ∀ c', t.child n c' = none) :
    (t.remove d c n).Wf := by
  have hrn : t.root ≠ n := (h.child_ne_root hc).symm
  have hcase : ∀ {d' c' m}, (t.remove d c n).child d' c' = some m →
      t.child d' c' = some m ∧ m ≠ n ∧ d' ≠ n := by
    intro d' c' m hm
    rw [child_remove] at hm
    split at hm
    · cases hm
    · rename_i hne
      refine ⟨hm, fun he => ?_, fun he => ?_⟩
      · subst he
        exact hne (h.unique hm hc)
      · rw [he, hleaf] at hm
        cases hm
  refine ⟨?_, h.root_parent, fun {d' c' m} hm => ?_, fun {d' c' m} hm => ?_,
    fun {d' c' m} hm => ?_, fun {d₁ c₁ d₂ c₂ m} h₁ h₂ => ?_, fun {d' c' m} hm hk => ?_,
    fun {m} hm => ?_⟩
  · rw [kind_remove_of_ne (show (t.remove d c n).root ≠ n from hrn)]
    exact h.root_kind
  · obtain ⟨hm, -, hd'⟩ := hcase hm
    rw [kind_remove_of_ne hd']
    exact h.child_dir hm
  · exact h.child_ne_root (hcase hm).1
  · obtain ⟨hm, hne, -⟩ := hcase hm
    rw [kind_remove_of_ne hne]
    exact h.child_kind hm
  · exact h.unique (hcase h₁).1 (hcase h₂).1
  · obtain ⟨hm, hne, -⟩ := hcase hm
    rw [kind_remove_of_ne hne] at hk
    exact h.parent_eq hm hk
  · have hmn : m ≠ n := fun he => hm (by rw [he]; exact update_self ..)
    rw [kind_remove_of_ne hmn] at hm
    exact (h.reach hm).remove hc hleaf hmn

end Update

/-! ## Paths -/

/-- The object that one step leads to. Only directories can be left. -/
def look (t : Tree ι α) (d : ι) (x : PathStep α) : Option ι :=
  if t.kind d = some .dir then
    match x with
    | .self => some d
    | .up => some (t.parent d)
    | .down c => t.child d c
  else none

/-- The object that a path leads to. -/
def walk (t : Tree ι α) (d : ι) : List (PathStep α) → Option ι
  | [] => some d
  | x :: xs => (t.look d x).bind fun d' => t.walk d' xs

theorem walk_append (d : ι) (xs ys : List (PathStep α)) :
    t.walk d (xs ++ ys) = (t.walk d xs).bind fun d' => t.walk d' ys := by
  induction xs generalizing d with
  | nil => rfl
  | cons x xs ih =>
    rw [List.cons_append, walk, walk, Option.bind_assoc]
    exact congrArg _ (funext fun d' => ih d')

section Look

variable (h : t.kind d = some .dir)
include h

theorem look_self : t.look d .self = some d := by
  unfold look
  exact if_pos h

theorem look_up : t.look d .up = some (t.parent d) := by
  unfold look
  exact if_pos h

theorem look_down (c : α) : t.look d (.down c) = t.child d c := by
  unfold look
  exact if_pos h

end Look

/-- A step leads to an object of the tree. -/
theorem Wf.kind_of_look (h : t.Wf) {x : PathStep α} (hx : t.look d x = some n) :
    t.kind n ≠ none := by
  unfold look at hx
  split at hx
  · rename_i hd
    cases x with
    | self =>
      rw [← Option.some.inj hx, hd]
      exact Option.some_ne_none _
    | up =>
      rw [← Option.some.inj hx, h.parent_kind hd]
      exact Option.some_ne_none _
    | down c => exact h.child_kind hx
  · cases hx

theorem Wf.kind_of_walk (h : t.Wf) {xs : List (PathStep α)} : ∀ {d : ι}, t.kind d ≠ none →
    t.walk d xs = some n → t.kind n ≠ none := by
  induction xs with
  | nil =>
    intro d hd hw
    rwa [← Option.some.inj hw]
  | cons x xs ih =>
    intro d _ hw
    obtain ⟨d', hd', hw⟩ := Option.bind_eq_some_iff.1 hw
    exact ih (h.kind_of_look hd') hw

/-! ## Canonical paths -/

/-- The object that names alone lead to from the root. -/
def At (t : Tree ι α) (cs : List α) (n : ι) : Prop := t.walk t.root (cs.map .down) = some n

/-- What is left of a path when the steps `self` and `up` have been carried out, after `acc`. -/
def canon : (acc : List α) → List (PathStep α) → List α
  | acc, [] => acc
  | acc, .self :: xs => canon acc xs
  | acc, .up :: xs => canon acc.dropLast xs
  | acc, .down c :: xs => canon (acc ++ [c]) xs

theorem mem_canon {c : α} {xs : List (PathStep α)} : ∀ {acc : List α}, c ∈ canon acc xs →
    c ∈ acc ∨ .down c ∈ xs := by
  induction xs with
  | nil => exact fun h => Or.inl h
  | cons x xs ih =>
    intro acc h
    cases x with
    | self => exact (ih h).imp_right (List.mem_cons_of_mem _)
    | up => exact (ih h).imp (List.dropLast_subset acc ·) (List.mem_cons_of_mem _)
    | down c' =>
      rcases ih h with h | h
      · rcases List.mem_append.1 h with h | h
        · exact Or.inl h
        · rw [List.mem_singleton.1 h]
          exact Or.inr (List.mem_cons_self ..)
      · exact Or.inr (List.mem_cons_of_mem _ h)

section At

variable {cs cs' : List α} {m : ι}

theorem at_nil : t.At [] n ↔ t.root = n := Option.some_inj

theorem Wf.at_concat (h : t.Wf) : t.At (cs ++ [c]) n ↔ ∃ d, t.At cs d ∧ t.child d c = some n := by
  unfold At
  rw [List.map_append, walk_append, Option.bind_eq_some_iff]
  refine exists_congr fun d => and_congr_right fun _ => ?_
  rw [List.map_singleton, walk, Option.bind_eq_some_iff]
  constructor
  · rintro ⟨m, hm, hn⟩
    obtain rfl := Option.some.inj hn
    unfold look at hm
    split at hm
    · exact hm
    · cases hm
  · intro hc
    exact ⟨n, by rw [look_down (h.child_dir hc), hc], rfl⟩

theorem Wf.exists_at (h : t.Wf) (hn : t.kind n ≠ none) : ∃ cs, t.At cs n := by
  induction h.reach hn with
  | root => exact ⟨[], rfl⟩
  | child _ hc ih =>
    obtain ⟨cs, hcs⟩ := ih (by rw [h.child_dir hc]; exact Option.some_ne_none _)
    exact ⟨cs ++ [_], h.at_concat.2 ⟨_, hcs, hc⟩⟩

/-- An object has one canonical path. -/
theorem Wf.at_unique (h : t.Wf) : ∀ {cs' : List α} {n : ι}, t.At cs n → t.At cs' n → cs = cs' := by
  induction cs using List.reverseRecOn with
  | nil =>
    intro cs' n hn hn'
    rcases List.eq_nil_or_concat cs' with rfl | ⟨cs₁, c₁, rfl⟩
    · rfl
    · rw [List.concat_eq_append] at hn'
      obtain ⟨d, -, hd⟩ := h.at_concat.1 hn'
      exact absurd (at_nil.1 hn).symm (h.child_ne_root hd)
  | append_singleton cs c ih =>
    intro cs' n hn hn'
    obtain ⟨d, hcs, hd⟩ := h.at_concat.1 hn
    rcases List.eq_nil_or_concat cs' with rfl | ⟨cs₁, c₁, rfl⟩
    · exact absurd (at_nil.1 hn').symm (h.child_ne_root hd)
    · rw [List.concat_eq_append] at hn' ⊢
      obtain ⟨d', hcs', hd'⟩ := h.at_concat.1 hn'
      obtain ⟨rfl, rfl⟩ := h.unique hd hd'
      rw [ih hcs hcs']

/-- No directory is its own child. -/
theorem Wf.child_ne_self (h : t.Wf) (hc : t.child d c = some n) : n ≠ d := by
  rintro rfl
  obtain ⟨cs, hcs⟩ := h.exists_at (h.child_kind hc)
  have hlen := congrArg List.length (h.at_unique hcs (h.at_concat.2 ⟨n, hcs, hc⟩))
  rw [List.length_append, List.length_singleton] at hlen
  omega

/-- No directory is the parent of its parent. -/
theorem Wf.child_ne_parent (h : t.Wf) (hc : t.child d c = some n) : t.parent d ≠ n := by
  rintro rfl
  have hd := h.child_dir hc
  by_cases hroot : d = t.root
  · rw [hroot, h.root_parent] at hc
    exact h.child_ne_root hc rfl
  obtain ⟨d', c', hc'⟩ := h.exists_child (by rw [hd]; exact Option.some_ne_none _) hroot
  obtain rfl := h.parent_eq hc' hd
  obtain ⟨cs, hcs⟩ := h.exists_at (h.child_kind hc)
  have hlen := congrArg List.length (h.at_unique hcs
    (h.at_concat.2 ⟨d, h.at_concat.2 ⟨_, hcs, hc'⟩, hc⟩))
  rw [List.length_append, List.length_append, List.length_singleton, List.length_singleton] at hlen
  omega

/-- **The canonical path** leads to the object that the path leads to. -/
theorem Wf.at_canon (h : t.Wf) {xs : List (PathStep α)} : ∀ {acc : List α} {d : ι}, t.At acc d →
    t.walk d xs = some n → t.At (canon acc xs) n := by
  induction xs with
  | nil =>
    intro acc d hd hw
    obtain rfl := Option.some.inj hw
    exact hd
  | cons x xs ih =>
    intro acc d hd hw
    obtain ⟨d', hx, hrest⟩ := Option.bind_eq_some_iff.1 hw
    unfold look at hx
    split at hx
    · next hk =>
      cases x with
      | self =>
        obtain rfl := Option.some.inj hx
        exact ih hd hrest
      | up =>
        obtain rfl := Option.some.inj hx
        refine ih ?_ hrest
        rcases List.eq_nil_or_concat acc with rfl | ⟨cs, c, rfl⟩
        · obtain rfl := at_nil.1 hd
          rw [h.root_parent]
          exact hd
        · rw [List.concat_eq_append] at hd ⊢
          obtain ⟨m, hm, hc⟩ := h.at_concat.1 hd
          rw [List.dropLast_concat, h.parent_eq hc hk]
          exact hm
      | down c => exact ih (h.at_concat.2 ⟨d, hd, hx⟩) hrest
    · cases hx

/-- A new object changes no canonical path. -/
theorem Wf.at_insert [DecidableEq ι] [DecidableEq α] (h : t.Wf) {k : Kind}
    (h' : (t.insert d c n k).Wf) (hc : t.child d c = none) : ∀ {m : ι}, t.At cs m →
      (t.insert d c n k).At cs m := by
  induction cs using List.reverseRecOn with
  | nil => exact fun hm => hm
  | append_singleton cs a ih =>
    intro m hm
    obtain ⟨p, hp, hchild⟩ := h.at_concat.1 hm
    refine h'.at_concat.2 ⟨p, ih hp, ?_⟩
    rw [child_insert, if_neg]
    · exact hchild
    · rintro ⟨rfl, rfl⟩
      rw [hc] at hchild
      cases hchild

/-- Without a leaf the other objects keep their canonical paths. -/
theorem Wf.at_remove [DecidableEq ι] [DecidableEq α] (h : t.Wf) (h' : (t.remove d c n).Wf)
    (hc : t.child d c = some n) (hleaf : ∀ c', t.child n c' = none) : ∀ {m : ι}, t.At cs m →
      m ≠ n → (t.remove d c n).At cs m := by
  induction cs using List.reverseRecOn with
  | nil => exact fun hm _ => hm
  | append_singleton cs a ih =>
    intro m hm hne
    obtain ⟨p, hp, hchild⟩ := h.at_concat.1 hm
    have hpn : p ≠ n := fun he => by
      rw [he, hleaf] at hchild
      cases hchild
    refine h'.at_concat.2 ⟨p, ih hp hpn, ?_⟩
    rw [child_remove, if_neg]
    · exact hchild
    · rintro ⟨rfl, rfl⟩
      exact hne (Option.some.inj (hchild.symm.trans hc))

end At

end Tree

end Gardos
