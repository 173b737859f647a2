import Gardos.Fs.Cwd

/-!
# Washing a path (`shell/buildin_cmd.c`)

The shell takes `"."` and `".."` out of a path by looking at its text alone, with `wash_path`. What
it leaves is the lexical normal form of the path (`washPath_normalForm`). The kernel resolves the
same path through the entries on disk, and finds the name of a working directory by climbing to the
root. `getcwd_of_chdir` says that the three agree.
-/

namespace Gardos.Shell

open Fs Outcome

/-- The loop of `wash_path`, entered with a component in `name`. -/
def washLoop : (fuel : ℕ) → (newAbsPath name : List UInt8) → (subPath : Option (List UInt8)) →
    Outcome (List UInt8)
  | 0, _, _, _ => throw .hang
  | fuel + 1, newAbsPath, name, subPath => do
    if name = [] then
      return newAbsPath
    let newAbsPath :=
      if name = dotDot then
        -- the last slash is the first byte exactly if nothing stands before it
        if beforeLastSlash newAbsPath ≠ [] then beforeLastSlash newAbsPath else [slash]
      else if name ≠ dot then
        (if newAbsPath ≠ [slash] then newAbsPath ++ [slash] else newAbsPath) ++ name
      else newAbsPath
    let (name, subPath) := nextName subPath
    access (name.length < 16)
    washLoop fuel newAbsPath name subPath

/-- `wash_path`. -/
def washPath (oldAbsPath : List UInt8) : Outcome (List UInt8) := do
  assert (oldAbsPath.head? = some slash)
  let (name, subPath) := pathParse oldAbsPath
  access (name.length < 16)
  if name = [] then
    return [slash]
  washLoop (oldAbsPath.length + 1) [slash] name subPath

/-! ## The text of a canonical path -/

variable {cs : List (List UInt8)} {path : List UInt8}

theorem absPath_ne_slash (hne : cs ≠ []) (hcs : ∀ c ∈ cs, c ≠ []) : absPath cs ≠ [slash] := by
  obtain ⟨c, cs, rfl⟩ := List.exists_cons_of_ne_nil hne
  rw [absPath, if_neg hne, joinPath_cons]
  intro h
  have hlen := congrArg List.length h
  have hc := List.length_pos_of_ne_nil (hcs c (List.mem_cons_self ..))
  rw [List.length_append, List.length_cons, List.length_singleton] at hlen
  omega

/-- A name is appended. -/
theorem absPath_concat (hcs : ∀ c ∈ cs, c ≠ []) (c : List UInt8) :
    (if absPath cs ≠ [slash] then absPath cs ++ [slash] else absPath cs) ++ c =
      absPath (cs ++ [c]) := by
  by_cases hne : cs = []
  · subst hne
    exact (List.append_nil _).symm
  · rw [if_pos (absPath_ne_slash hne hcs), absPath, if_neg hne, absPath, if_neg (by simp),
      joinPath_concat, List.append_assoc]
    rfl

/-- The last name is taken away. -/
theorem absPath_dropLast (hcs : ∀ c ∈ cs, slash ∉ c) :
    (if beforeLastSlash (absPath cs) ≠ [] then beforeLastSlash (absPath cs) else [slash]) =
      absPath cs.dropLast := by
  rcases List.eq_nil_or_concat cs with rfl | ⟨cs, c, rfl⟩
  · decide
  rw [List.concat_eq_append] at hcs ⊢
  have hc := hcs c (List.mem_append_right _ (List.mem_singleton_self c))
  have hbefore : beforeLastSlash (absPath (cs ++ [c])) = joinPath cs := by
    rw [absPath, if_neg (by simp), joinPath_concat, beforeLastSlash_append hc]
  rw [hbefore, List.dropLast_concat, absPath]
  by_cases hne : cs = []
  · subst hne
    rfl
  · have hpos := length_le_joinPath cs
    have hcnt := List.length_pos_of_ne_nil hne
    rw [if_pos (fun h => by rw [h, List.length_nil] at hpos; omega), if_neg hne]

/-- **The loop of `wash_path`** carries out the steps of the path on its text. -/
theorem washLoop_eq {fuel : ℕ} : ∀ {acc : List (List UInt8)} {name : List UInt8}
    {sub : Option (List UInt8)} {cs : List (List UInt8)},
    (cs = if name = [] then [] else name :: restComponents sub) → (∀ c ∈ cs, c.length ≤ 15) →
    (∀ c ∈ cs, slash ∉ c) → (∀ c ∈ acc, c ≠ [] ∧ slash ∉ c) → cs.length < fuel →
    washLoop fuel (absPath acc) name sub = .ok (absPath (Tree.canon acc (cs.map stepOf))) := by
  induction fuel with
  | zero => exact fun _ _ _ _ h => absurd h (Nat.not_lt_zero _)
  | succ fuel ih =>
    intro acc name sub cs hcs hlen hslash hacc hfuel
    rw [washLoop]
    by_cases hne : name = []
    · rw [if_pos hne] at hcs ⊢
      subst hcs
      rfl
    rw [if_neg hne] at hcs ⊢
    obtain ⟨next, sub', hnext, hrest, -⟩ := exists_nextName sub
    subst hcs
    have hnextlen : next.length < 16 := by
      by_cases h : next = []
      · rw [h]
        decide
      · rw [hrest, if_neg h] at hlen
        have := hlen next (by simp)
        omega
    have hrec : ∀ acc' : List (List UInt8), (∀ c ∈ acc', c ≠ [] ∧ slash ∉ c) →
        washLoop fuel (absPath acc') next sub' =
          .ok (absPath (Tree.canon acc' ((restComponents sub).map stepOf))) := fun acc' h' =>
      ih hrest (fun c hc => hlen c (List.mem_cons_of_mem _ hc))
        (fun c hc => hslash c (List.mem_cons_of_mem _ hc)) h'
        (by rw [List.length_cons] at hfuel; omega)
    simp only [hnext]
    rw [access, if_pos hnextlen, ok_bind, List.map_cons]
    by_cases hdotDot : name = dotDot
    · rw [if_pos hdotDot, absPath_dropLast fun c hc => (hacc c hc).2,
        hrec _ fun c hc => hacc c (List.dropLast_subset acc hc), hdotDot]
      rfl
    rw [if_neg hdotDot]
    by_cases hdot : name = dot
    · rw [if_neg (not_not.2 hdot), hrec acc hacc, hdot]
      rfl
    · rw [if_pos hdot, absPath_concat fun c hc => (hacc c hc).1, hrec _ fun c hc => ?_,
        Tree.stepOf_of_ne hdot hdotDot]
      · rfl
      · rcases List.mem_append.1 hc with hc | hc
        · exact hacc c hc
        · rw [List.mem_singleton.1 hc]
          exact ⟨hne, hslash name (List.mem_cons_self ..)⟩

theorem washPath_of_components (hhead : path.head? = some slash)
    (h15 : ∀ c ∈ components path, c.length ≤ 15) :
    washPath path = .ok (absPath (canonical path)) := by
  obtain ⟨name, sub, hparse, -, hcomp, -⟩ := exists_pathParse path
  have hslash : ∀ c ∈ components path, slash ∉ c := fun c => slash_notMem_of_mem_components
  have hlen := length_components_le path
  unfold washPath
  rw [assert, if_pos hhead, ok_bind, hparse]
  dsimp only
  by_cases hne : name = []
  · rw [if_pos hne] at hcomp
    rw [hne, access, if_pos (by decide), ok_bind, if_pos rfl, canonical, hcomp]
    rfl
  have hname : name.length ≤ 15 := h15 name (by rw [hcomp, if_neg hne]; simp)
  rw [access, if_pos (by omega), ok_bind, if_neg hne]
  exact @washLoop_eq _ [] _ _ _ hcomp h15 hslash (fun c hc => absurd hc List.not_mem_nil)
    (by omega)

/-- **`wash_path`** yields the canonical path, by the text of the path alone. -/
theorem washPath_eq (hp : PathOk path) : washPath path = .ok (absPath (canonical path)) :=
  washPath_of_components hp.head hp.components

/-! ## The lexical normal form -/

/-- One component is carried out on the stack of those before it. -/
def lexicalStep (stack : List (List UInt8)) (c : List UInt8) : List (List UInt8) :=
  if c = dot then stack else if c = dotDot then stack.dropLast else stack ++ [c]

/-- The components that are left of a path, from left to right. -/
def lexicalStack (path : List UInt8) : List (List UInt8) :=
  (components path).foldl lexicalStep []

theorem canon_map_stepOf (cs : List (List UInt8)) : ∀ acc : List (List UInt8),
    Tree.canon acc (cs.map stepOf) = cs.foldl lexicalStep acc := by
  induction cs with
  | nil => exact fun _ => rfl
  | cons c cs ih =>
    intro acc
    rw [List.map_cons, List.foldl_cons, ← ih]
    by_cases hdot : c = dot
    · rw [lexicalStep, if_pos hdot, hdot]
      rfl
    rw [lexicalStep, if_neg hdot]
    by_cases hdotDot : c = dotDot
    · rw [if_pos hdotDot, hdotDot]
      rfl
    · rw [if_neg hdotDot, Tree.stepOf_of_ne hdot hdotDot]
      rfl

theorem canonical_eq_lexicalStack (path : List UInt8) : canonical path = lexicalStack path :=
  canon_map_stepOf (components path) []

/-- A stack without `"."` and `".."` is its own normal form. -/
theorem foldl_lexicalStep_of_names (h : ∀ c ∈ cs, c ≠ dot ∧ c ≠ dotDot) :
    ∀ acc : List (List UInt8), cs.foldl lexicalStep acc = acc ++ cs := by
  induction cs with
  | nil => exact fun acc => (List.append_nil acc).symm
  | cons c cs ih =>
    intro acc
    obtain ⟨hdot, hdotDot⟩ := h c (List.mem_cons_self ..)
    rw [List.foldl_cons, lexicalStep, if_neg hdot, if_neg hdotDot,
      ih fun c' hc' => h c' (List.mem_cons_of_mem _ hc'), List.append_assoc]
    rfl

/-- What stands between the slashes of a joined path are the names themselves. -/
theorem splitOnP_joinPath {c : List UInt8} (h : ∀ x ∈ c :: cs, slash ∉ x) :
    (c ++ joinPath cs).splitOnP (· = slash) = c :: cs := by
  induction cs generalizing c with
  | nil =>
    have hc := h c (List.mem_cons_self ..)
    change (c ++ []).splitOnP (· = slash) = [c]
    rw [List.append_nil, List.splitOnP_eq_singleton]
    rintro x hx
    simp only [decide_eq_false_iff_not]
    rintro rfl
    exact hc hx
  | cons d cs ih =>
    have hc := h c (List.mem_cons_self ..)
    rw [joinPath_cons, List.cons_append, List.splitOnP_append_cons_of_forall_mem,
      ih fun x hx => h x (List.mem_cons_of_mem _ hx)]
    · intro x hx
      simp only [decide_eq_false_iff_not]
      rintro rfl
      exact hc hx
    · simp

/-- A normal path: `"/"`, or names with one slash before each, none of them empty, `"."` or
`".."`. -/
def IsNormal (path : List UInt8) : Prop :=
  path = [slash] ∨ ∃ rest, path = slash :: rest ∧
    ∀ c ∈ rest.splitOnP (· = slash), c ≠ [] ∧ c ≠ dot ∧ c ≠ dotDot

section NormalForm

variable {path : List UInt8} {cs : List (List UInt8)}

theorem isNormal_absPath (h : ∀ c ∈ cs, c ≠ [] ∧ slash ∉ c ∧ c ≠ dot ∧ c ≠ dotDot) :
    IsNormal (absPath cs) := by
  cases cs with
  | nil => exact .inl rfl
  | cons c cs =>
    refine .inr ⟨c ++ joinPath cs, by rw [absPath, if_neg (List.cons_ne_nil _ _)]; rfl, ?_⟩
    rw [splitOnP_joinPath fun x hx => (h x hx).2.1]
    exact fun x hx => ⟨(h x hx).1, (h x hx).2.2⟩

theorem components_absPath_of_names (h : ∀ c ∈ cs, c ≠ [] ∧ slash ∉ c) :
    components (absPath cs) = cs := by
  by_cases hnil : cs = []
  · rw [hnil]
    decide
  · rw [absPath, if_neg hnil]
    exact components_joinPath h

theorem names_of_mem_lexicalStack {c : List UInt8} (hc : c ∈ lexicalStack path) :
    c ∈ components path ∧ c ≠ [] ∧ slash ∉ c ∧ c ≠ dot ∧ c ≠ dotDot := by
  rw [← canonical_eq_lexicalStack] at hc
  obtain ⟨hmem, hdots⟩ := mem_canon_components hc
  exact ⟨hmem, ne_nil_of_mem_components hmem, slash_notMem_of_mem_components hmem, hdots⟩

theorem length_absPath_lexicalStack (hhead : path.head? = some slash) :
    (absPath (lexicalStack path)).length ≤ path.length := by
  obtain ⟨rest, rfl⟩ := List.head?_eq_some_iff.1 hhead
  by_cases hnil : lexicalStack (slash :: rest) = []
  · rw [absPath, if_pos hnil, List.length_cons]
    exact Nat.succ_le_succ (Nat.zero_le _)
  · have hle := length_joinPath_le (le_refl rest.length)
    have hcanon := @length_joinPath_canon (components (slash :: rest)) []
    rw [canon_map_stepOf, components_slash] at hcanon
    change _ ≤ 0 + _ at hcanon
    rw [absPath, if_neg hnil, List.length_cons, lexicalStack, components_slash]
    omega

/-- **`wash_path` computes the lexical normal form**, of any absolute path whose components fit
into `name`. -/
theorem washPath_normalForm (path : List UInt8) (hhead : path.head? = some slash)
    (h15 : ∀ c ∈ components path, c.length ≤ 15) :
    ∃ washed, washPath path = .ok washed ∧ washed = absPath (lexicalStack path) ∧
      IsNormal washed ∧ washed.length ≤ path.length ∧ washPath washed = .ok washed := by
  have hnames := fun c (hc : c ∈ lexicalStack path) => names_of_mem_lexicalStack hc
  have hcomp : components (absPath (lexicalStack path)) = lexicalStack path :=
    components_absPath_of_names fun c hc => ⟨(hnames c hc).2.1, (hnames c hc).2.2.1⟩
  have hhead' : (absPath (lexicalStack path)).head? = some slash := by
    cases lexicalStack path <;> rfl
  have hagain : lexicalStack (absPath (lexicalStack path)) = lexicalStack path := by
    conv_lhs => rw [lexicalStack, hcomp]
    exact foldl_lexicalStep_of_names (fun c hc => (hnames c hc).2.2.2) []
  refine ⟨_, (washPath_of_components hhead h15).trans (by rw [canonical_eq_lexicalStack]), rfl,
    isNormal_absPath fun c hc => (hnames c hc).2, length_absPath_lexicalStack hhead, ?_⟩
  rw [washPath_of_components hhead' fun c hc => ?_, canonical_eq_lexicalStack, hagain]
  rw [hcomp] at hc
  exact h15 c (hnames c hc).1

end NormalForm

/-- `"//a/./b/../c"` becomes `"/a/c"`. -/
theorem washPath_normalForm_dots : washPath [47, 47, 97, 47, 46, 47, 98, 47, 46, 46, 47, 99] =
      .ok [47, 97, 47, 99] ∧ IsNormal [47, 97, 47, 99] := by
  obtain ⟨washed, hwash, hval, hnormal, -⟩ := washPath_normalForm
    [47, 47, 97, 47, 46, 47, 98, 47, 46, 46, 47, 99] rfl (by decide)
  have heq : washed = [47, 97, 47, 99] := hval.trans (by decide)
  exact ⟨heq ▸ hwash, heq ▸ hnormal⟩

/-! ## The three ways agree -/

/-- **`chdir` and `getcwd`.** When `sys_chdir` has accepted a path, `sys_getcwd` returns the washed
path, and a search for that finds the working directory again. -/
theorem getcwd_of_chdir (s : FileSys) (t : Tree ℕ (List UInt8)) (r : ℕ → ℕ) (h : FsOk s t r)
    (path : List UInt8) (hp : PathArg path) (uninit : Uninit) (cwd : ℕ) (s₁ : FileSys)
    (hrun : sysChdir s uninit path = .ok (some cwd, s₁)) :
    ∃ washed s₂, washPath path = .ok washed ∧ sysGetcwd s₁ cwd 512 = .ok (some washed, s₂) ∧
      ∀ uninit', ∃ record s₃, searchFile s₂ uninit' washed = .ok (some cwd, record, s₃) := by
  obtain ⟨h₁, hk, hat⟩ := h.chdir_at hp hrun
  have hlen := length_canonical_lt hp
  obtain ⟨s₂, hcwd, -, h₂⟩ := h₁.sysGetcwd hat hk (fun c hc => (isName_of_mem_canonical hp hc).2)
    hlen (show _ ≤ 512 by omega)
  refine ⟨_, s₂, washPath_eq (pathOk_of_pathArg hp), hcwd, fun uninit' => ?_⟩
  obtain ⟨record, s₃, hsearch, -⟩ := h₂.search (pathArg_absPath hp) uninit'
  rw [h₂.resolve_absPath hp hat hk] at hsearch
  exact ⟨record, s₃, hsearch⟩

/-- After `mkdir("/a")` and `chdir("/a/.")`, `getcwd` returns `"/a"`. -/
theorem getcwd_of_chdir_dot : ∃ x cwd s₁ s₂,
    exec noUninit smallRun (.mkdir pathA) = .ok (true, x) ∧
      sysChdir x.fs noUninit (pathA ++ [47, 46]) = .ok (some cwd, s₁) ∧
      sysGetcwd s₁ cwd 512 = .ok (some pathA, s₂) := by
  obtain ⟨⟨done, x⟩, hmk, hx⟩ := exists_of_holds (o := exec noUninit smallRun (.mkdir pathA))
    (f := fun r => r.1 && holds (sysChdir r.2.fs noUninit (pathA ++ [47, 46])) fun r => r.1.isSome)
    (by decide +kernel)
  obtain ⟨hdone, hchdir⟩ := Bool.and_eq_true_iff.1 hx
  obtain rfl : done = true := hdone
  obtain ⟨⟨no, s₁⟩, hrun, hno⟩ := exists_of_holds hchdir
  obtain ⟨cwd, rfl⟩ := Option.isSome_iff_exists.1 hno
  obtain ⟨t, leak, h⟩ := smallRun_runOk.reach
    (.single ⟨.mkdir pathA, noUninit, true, ⟨pathArg_pathA, roomToMake_smallRun⟩, hmk⟩)
  obtain ⟨washed, s₂, hwash, hcwd, -⟩ := getcwd_of_chdir x.fs t _ h.fs (pathA ++ [47, 46])
    (Or.inr ⟨⟨rfl, by decide, by decide, by decide⟩, by decide⟩) noUninit cwd s₁ hrun
  obtain rfl : pathA = washed := Except.ok.inj hwash
  exact ⟨x, cwd, s₁, s₂, hmk, hrun, hcwd⟩

end Gardos.Shell
