import Mathlib.Data.List.TakeWhile
import Gardos.Fs.Path

/-!
# The components of a path

A path is a sequence of components separated by slashes. `path_parse` splits off the first one;
the loops of `path_depth_cnt` and `search_file` go through all of them.
-/

namespace Gardos.Fs

open Bytes Outcome

/-- The components of a path: what stands between the slashes. -/
def components (path : List UInt8) : List (List UInt8) :=
  (path.splitOnP (· = slash)).filter (· ≠ [])

/-- The components of what is left of a path, if anything is. -/
def restComponents : Option (List UInt8) → List (List UInt8)
  | none => []
  | some path => components path

theorem components_slash (path : List UInt8) : components (slash :: path) = components path := by
  simp [components, List.splitOnP_cons_eq_if_modifyHead]

theorem components_dropWhile (path : List UInt8) :
    components (path.dropWhile (· = slash)) = components path := by
  induction path with
  | nil => rfl
  | cons x path ih =>
    by_cases hx : x = slash
    · subst hx
      rw [List.dropWhile_cons_of_pos (by simp), ih, components_slash]
    · rw [List.dropWhile_cons_of_neg (by simpa using hx)]

theorem components_append {c : List UInt8} (hc : slash ∉ c) (hne : c ≠ []) (rest : List UInt8) :
    components (c ++ slash :: rest) = c :: components rest := by
  rw [components, List.splitOnP_append_cons_of_forall_mem, List.filter_cons_of_pos (by simpa)]
  · rfl
  · intro x hx
    simp only [decide_eq_false_iff_not]
    rintro rfl
    exact hc hx
  · simp

theorem components_single {c : List UInt8} (hc : slash ∉ c) (hne : c ≠ []) :
    components c = [c] := by
  rw [components, List.splitOnP_eq_singleton, List.filter_cons_of_pos (by simpa),
    List.filter_nil]
  intro x hx
  simp only [decide_eq_false_iff_not]
  rintro rfl
  exact hc hx

theorem slash_notMem_takeWhile (path : List UInt8) : slash ∉ path.takeWhile (· ≠ slash) := by
  intro h
  simpa using List.mem_takeWhile_imp h

/-- What `path_parse` leaves of a path starts with a slash. -/
theorem exists_pathParse (path : List UInt8) :
    ∃ c sub, pathParse path = (c, sub) ∧ slash ∉ c ∧
      components path = (if c = [] then [] else c :: restComponents sub) ∧
      (c = [] → sub = none) ∧ c.length + (sub.getD []).length ≤ path.length ∧
      ∀ rest, sub = some rest → ∃ rest', rest = slash :: rest' := by
  set path' := path.dropWhile (· = slash) with hpath'
  set c := path'.takeWhile (· ≠ slash)
  set rest := path'.dropWhile (· ≠ slash)
  have happ : c ++ rest = path' := List.takeWhile_append_dropWhile
  have hslash : slash ∉ c := slash_notMem_takeWhile path'
  have hlen : path'.length ≤ path.length := (List.dropWhile_sublist _).length_le
  have hlen' : c.length + rest.length = path'.length := by rw [← happ, List.length_append]
  have hcomp : components path = components path' := (components_dropWhile path).symm
  have hhead : ∀ {p : UInt8 → Bool} {l : List UInt8} {x xs}, l.dropWhile p = x :: xs →
      p x = false := fun {p l x xs} h => by
    have := List.head?_dropWhile_not p l
    rwa [h] at this
  refine ⟨c, if rest = [] then none else some rest, rfl, hslash, ?_, fun h => ?_, ?_,
    fun r hr => ?_⟩
  · rw [hcomp, ← happ]
    cases hr : rest with
    | nil =>
      rw [List.append_nil, if_pos rfl]
      by_cases hne : c = []
      · rw [if_pos hne, hne]
        rfl
      · rw [if_neg hne, components_single hslash hne]
        rfl
    | cons x r =>
      obtain rfl : x = slash := by simpa using hhead hr
      have hne : c ≠ [] := fun h => by
        rw [h, hr, List.nil_append] at happ
        simpa using hhead (hpath'.symm.trans happ.symm)
      rw [if_neg hne, if_neg (List.cons_ne_nil _ _), components_append hslash hne]
      exact congrArg _ (components_slash r).symm
  · cases hr : rest with
    | nil => rfl
    | cons x r =>
      rw [h, hr, List.nil_append] at happ
      have hx : x = slash := by simpa using hhead hr
      simpa [hx] using hhead (hpath'.symm.trans happ.symm)
  · split
    · rw [Option.getD_none, List.length_nil]
      omega
    · rw [Option.getD_some]
      omega
  · split at hr
    · cases hr
    · rename_i hne
      obtain rfl := Option.some.inj hr
      obtain ⟨x, r, hr'⟩ := List.exists_cons_of_ne_nil hne
      obtain rfl : x = slash := by simpa using hhead hr'
      exact ⟨r, hr'⟩

theorem exists_nextName (sub : Option (List UInt8)) :
    ∃ c sub', nextName sub = (c, sub') ∧
      restComponents sub = (if c = [] then [] else c :: restComponents sub') ∧
      (c = [] → sub' = none) := by
  cases sub with
  | none => exact ⟨[], none, rfl, rfl, fun _ => rfl⟩
  | some path =>
    obtain ⟨c, sub', h, -, hcomp, hnone, -⟩ := exists_pathParse path
    exact ⟨c, sub', h, hcomp, hnone⟩

theorem components_append_slash (xs ys : List UInt8) :
    components (xs ++ slash :: ys) = components xs ++ components ys := by
  rw [components, List.splitOnP_append_cons _ _ (by simp), List.filter_append]
  rfl

/-- A path with one slash before each component. -/
def joinPath (cs : List (List UInt8)) : List UInt8 := cs.flatMap (slash :: ·)

theorem joinPath_cons (c : List UInt8) (cs : List (List UInt8)) :
    joinPath (c :: cs) = slash :: c ++ joinPath cs := rfl

/-- A path is at least as long as its components with the slashes they need. -/
theorem length_joinPath_le {n : ℕ} : ∀ {path : List UInt8}, path.length ≤ n →
    (joinPath (components path)).length ≤ path.length + 1 := by
  induction n with
  | zero =>
    intro path h
    obtain rfl := List.eq_nil_of_length_eq_zero (Nat.le_zero.1 h)
    exact Nat.zero_le _
  | succ n ih =>
    intro path h
    obtain ⟨c, sub, -, -, hcomp, -, hlen, hrest⟩ := exists_pathParse path
    rw [hcomp]
    split
    · exact Nat.zero_le _
    · rename_i hne
      have hc : 0 < c.length := List.length_pos_of_ne_nil hne
      rw [joinPath_cons, List.length_append, List.length_cons]
      cases sub with
      | none =>
        rw [Option.getD_none, List.length_nil] at hlen
        simp only [restComponents, joinPath, List.flatMap_nil, List.length_nil]
        omega
      | some rest =>
        obtain ⟨rest', rfl⟩ := hrest rest rfl
        rw [Option.getD_some, List.length_cons] at hlen
        have := ih (show rest'.length ≤ n by omega)
        rw [restComponents, components_slash]
        omega

theorem ne_nil_of_mem_components {path c : List UInt8} (h : c ∈ components path) : c ≠ [] := by
  simpa using (List.mem_filter.1 h).2

/-- The bytes of a component are bytes of the path other than the slash. -/
theorem mem_of_mem_components {path c : List UInt8} (h : c ∈ components path) :
    ∀ x ∈ c, x ∈ path ∧ x ≠ slash := by
  replace h := (List.mem_filter.1 h).1
  induction path generalizing c with
  | nil => simp_all
  | cons y path ih =>
    have hcons : ∀ {c'}, c' ∈ path.splitOnP (· = slash) → ∀ x ∈ c', x ∈ y :: path ∧ x ≠ slash :=
      fun h x hx => (ih h x hx).imp_left (List.mem_cons_of_mem _)
    rw [List.splitOnP_cons_eq_if_modifyHead] at h
    split at h
    · rcases List.mem_cons.1 h with rfl | h
      · exact fun x hx => absurd hx List.not_mem_nil
      · exact hcons h
    · rename_i hy
      cases hs : path.splitOnP (· = slash) with
      | nil => simp [hs] at h
      | cons c' cs =>
        rw [hs, List.modifyHead_cons] at h
        rcases List.mem_cons.1 h with rfl | h
        · intro x hx
          rcases List.mem_cons.1 hx with rfl | hx
          · exact ⟨List.mem_cons_self .., fun he => hy (by simp [he])⟩
          · exact hcons (by rw [hs]; exact List.mem_cons_self ..) x hx
        · exact hcons (by rw [hs]; exact List.mem_cons_of_mem _ h)

theorem slash_notMem_of_mem_components {path c : List UInt8} (h : c ∈ components path) :
    slash ∉ c := fun hs => (mem_of_mem_components h _ hs).2 rfl

theorem components_joinPath {cs : List (List UInt8)} (h : ∀ c ∈ cs, c ≠ [] ∧ slash ∉ c) :
    components (joinPath cs) = cs := by
  induction cs with
  | nil => rfl
  | cons c cs ih =>
    have hc := h c (List.mem_cons_self ..)
    have ih := ih fun x hx => h x (List.mem_cons_of_mem _ hx)
    rw [joinPath_cons, List.cons_append, components_slash]
    cases cs with
    | nil =>
      rw [joinPath, List.flatMap_nil, List.append_nil, components_single hc.2 hc.1]
    | cons c' cs =>
      rw [joinPath_cons, List.cons_append] at ih ⊢
      rw [components_append hc.2 hc.1, ← components_slash, ih]

/-- The number of rounds that the loops over a path need. -/
theorem length_components_le (path : List UInt8) : (components path).length ≤ path.length := by
  have hjoin : ∀ cs : List (List UInt8), (∀ c ∈ cs, c ≠ []) →
      2 * cs.length ≤ (joinPath cs).length := by
    intro cs
    induction cs with
    | nil => exact fun _ => Nat.zero_le _
    | cons c cs ih =>
      intro h
      have hc : 0 < c.length := List.length_pos_of_ne_nil (h c (List.mem_cons_self ..))
      have := ih fun x hx => h x (List.mem_cons_of_mem _ hx)
      rw [joinPath_cons, List.length_append, List.length_cons, List.length_cons]
      omega
  have h1 := hjoin (components path) fun c hc => ne_nil_of_mem_components hc
  have h2 := length_joinPath_le (le_refl path.length)
  omega

theorem depthLoop_eq {fuel : ℕ} : ∀ {sub : Option (List UInt8)},
    (restComponents sub).length < fuel → (∀ c ∈ restComponents sub, c.length ≤ 16) →
    depthLoop fuel sub = .ok ((restComponents sub).length + 1) := by
  induction fuel with
  | zero =>
    intro sub h _
    exact absurd h (Nat.not_lt_zero _)
  | succ fuel ih =>
    intro sub hfuel hlen
    cases sub with
    | none => rfl
    | some path =>
      obtain ⟨c, sub', hparse, -, hcomp, -, -, -⟩ := exists_pathParse path
      change components path = _ at hcomp
      rw [depthLoop, hparse]
      simp only [restComponents] at hfuel hlen ⊢
      by_cases hne : c = []
      · rw [if_pos hne] at hcomp
        rw [hcomp, hne, access, if_pos (by simp), ok_bind, if_pos rfl]
        rfl
      · rw [if_neg hne] at hcomp
        rw [hcomp] at hfuel hlen ⊢
        rw [access, if_pos (hlen c (List.mem_cons_self ..)), ok_bind, if_neg hne,
          ih (by simpa using hfuel) fun x hx => hlen x (List.mem_cons_of_mem _ hx)]
        rfl

/-- `path_depth_cnt` counts the components, if there are any. -/
theorem pathDepthCnt_eq {path : List UInt8} (uninit : Uninit) (hne : components path ≠ [])
    (hlen : ∀ c ∈ components path, c.length ≤ 16) :
    pathDepthCnt uninit path = .ok (components path).length := by
  obtain ⟨c, sub, hparse, -, hcomp, -, -, -⟩ := exists_pathParse path
  have hc : c ≠ [] := fun h => hne (by rw [hcomp, if_pos h])
  rw [if_neg hc] at hcomp
  have hle := length_components_le path
  rw [hcomp] at hlen hle ⊢
  unfold pathDepthCnt
  rw [hparse]
  simp only
  rw [access, if_pos (hlen c (List.mem_cons_self ..)), ok_bind, if_neg (fun h => hc h.1),
    depthLoop_eq (by simpa using Nat.le_succ_of_le hle) fun x hx =>
      hlen x (List.mem_cons_of_mem _ hx)]
  rfl

end Gardos.Fs
