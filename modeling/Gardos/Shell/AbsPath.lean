import Gardos.Fs.Depth
import Gardos.Shell.WashPath

/-!
# The paths of the built-in commands (`shell/buildin_cmd.c`)

`make_clear_abs_path` puts a relative path behind the working directory, in a buffer of 512 bytes,
and washes the result into another. Both are filled with `strcat`, which knows no bounds. Each of
the two parts is shorter than 512 bytes, their sum need not be. `fitsBuffers_iff` has the condition
under which nothing is written outside of the buffers.
-/

namespace Gardos.Shell

open Fs Outcome

/-- `MAX_PATH_LEN`. -/
def maxPathLen : ℕ := 512

/-- `strcat` to a string in a buffer of `MAX_PATH_LEN` bytes. -/
def strcat (dst src : List UInt8) : Outcome (List UInt8) := do
  access (dst.length + src.length < maxPathLen)
  return dst ++ src

/-- What `wash_path` does with one component. -/
def washName (newAbsPath name : List UInt8) : Outcome (List UInt8) :=
  if name = dotDot then
    pure (if beforeLastSlash newAbsPath ≠ [] then beforeLastSlash newAbsPath else [slash])
  else if name ≠ dot then do
    let newAbsPath ← if newAbsPath ≠ [slash] then strcat newAbsPath [slash] else pure newAbsPath
    strcat newAbsPath name
  else pure newAbsPath

/-- The loop of `wash_path`, as `washLoop`, with a buffer that has an end. -/
def washLoopIn : (fuel : ℕ) → (newAbsPath name : List UInt8) → (subPath : Option (List UInt8)) →
    Outcome (List UInt8)
  | 0, _, _, _ => throw .hang
  | fuel + 1, newAbsPath, name, subPath => do
    if name = [] then
      return newAbsPath
    let newAbsPath ← washName newAbsPath name
    let (name, subPath) := nextName subPath
    access (name.length < 16)
    washLoopIn fuel newAbsPath name subPath

/-- `wash_path` into a buffer that has an end. -/
def washPathIn (oldAbsPath : List UInt8) : Outcome (List UInt8) := do
  assert (oldAbsPath.head? = some slash)
  let (name, subPath) := pathParse oldAbsPath
  access (name.length < 16)
  if name = [] then
    return [slash]
  let newAbsPath ← strcat [] [slash]
  washLoopIn (oldAbsPath.length + 1) newAbsPath name subPath

/-- `make_clear_abs_path`, where `getcwd` returns `cwd`. -/
def makeClearAbsPath (cwd path : List UInt8) : Outcome (List UInt8) := do
  let absPath ←
    if path.head? ≠ some slash then
      if cwd ≠ [slash] then strcat cwd [slash] else pure cwd
    else pure []
  let absPath ← strcat absPath path
  washPathIn absPath

/-! ## Washing within bounds -/

section Wash

variable {path washed : List UInt8}

/-- The bytes of a path that count against the bound: none for the root. -/
def pathBytes (newAbsPath : List UInt8) : ℕ := if newAbsPath = [slash] then 0 else newAbsPath.length

theorem pathBytes_le (newAbsPath : List UInt8) : pathBytes newAbsPath ≤ newAbsPath.length := by
  unfold pathBytes
  split
  · exact Nat.zero_le _
  · exact le_rfl

theorem length_beforeLastSlash_le (path : List UInt8) :
    (beforeLastSlash path).length ≤ path.length := by
  have hdrop := (List.dropWhile_sublist (· ≠ slash) (l := path.reverse)).length_le
  rw [List.length_reverse] at hdrop
  rw [beforeLastSlash, List.length_reverse, List.length_tail]
  omega

theorem strcat_eq {dst src : List UInt8} (h : dst.length + src.length < maxPathLen) :
    strcat dst src = .ok (dst ++ src) :=
  bind_eq_ok.2 ⟨(), access_eq_ok.2 h, rfl⟩

/-- Within bounds, a component is carried out as in `washLoop`. -/
theorem washName_eq (newAbsPath name : List UInt8)
    (h : pathBytes newAbsPath + (name.length + 1) < maxPathLen) :
    ∃ new', washName newAbsPath name = .ok new' ∧
      pathBytes new' ≤ pathBytes newAbsPath + (name.length + 1) ∧
      new' = (if name = dotDot then
          if beforeLastSlash newAbsPath ≠ [] then beforeLastSlash newAbsPath else [slash]
        else if name ≠ dot then
          (if newAbsPath ≠ [slash] then newAbsPath ++ [slash] else newAbsPath) ++ name
        else newAbsPath) := by
  have hroot : pathBytes [slash] = 0 := if_pos rfl
  unfold washName
  by_cases hup : name = dotDot
  · rw [if_pos hup, if_pos hup]
    refine ⟨_, rfl, ?_, rfl⟩
    by_cases hbefore : beforeLastSlash newAbsPath ≠ []
    · rw [if_pos hbefore]
      have hle := length_beforeLastSlash_le newAbsPath
      by_cases hnew : newAbsPath = [slash]
      · rw [hnew] at hbefore
        exact absurd (by decide) hbefore
      · rw [show pathBytes newAbsPath = newAbsPath.length from if_neg hnew]
        have hbytes := pathBytes_le (beforeLastSlash newAbsPath)
        omega
    · rw [if_neg hbefore, hroot]
      exact Nat.zero_le _
  rw [if_neg hup, if_neg hup]
  by_cases hself : name ≠ dot
  · rw [if_pos hself, if_pos hself]
    by_cases hnew : newAbsPath = [slash]
    · rw [if_neg (not_not.2 hnew), if_neg (not_not.2 hnew)]
      subst hnew
      rw [hroot] at h ⊢
      refine ⟨_, strcat_eq ?_, ?_, rfl⟩
      · rw [List.length_singleton]
        omega
      · refine (pathBytes_le _).trans ?_
        rw [List.length_append, List.length_singleton]
        omega
    · have hbytes : pathBytes newAbsPath = newAbsPath.length := if_neg hnew
      rw [hbytes] at h ⊢
      rw [if_pos hnew, if_pos hnew, strcat_eq (by rw [List.length_singleton]; omega), ok_bind]
      refine ⟨_, strcat_eq ?_, ?_, rfl⟩
      · rw [List.length_append, List.length_singleton]
        omega
      · refine (pathBytes_le _).trans ?_
        rw [List.length_append, List.length_append, List.length_singleton]
        omega
  · rw [if_neg hself, if_neg hself]
    exact ⟨_, rfl, Nat.le_add_right .., rfl⟩

/-- **A path that is short enough is washed within bounds.** -/
theorem washLoopIn_eq {fuel : ℕ} : ∀ {new name : List UInt8} {sub : Option (List UInt8)}
    {cs : List (List UInt8)}, (cs = if name = [] then [] else name :: restComponents sub) →
    pathBytes new + (joinPath cs).length < maxPathLen →
    washLoopIn fuel new name sub = washLoop fuel new name sub := by
  induction fuel with
  | zero => exact fun _ _ => rfl
  | succ fuel ih =>
    intro new name sub cs hcs hbound
    rw [washLoopIn, washLoop]
    by_cases hne : name = []
    · rw [if_pos hne, if_pos hne]
    rw [if_neg hne] at hcs
    rw [if_neg hne, if_neg hne]
    subst hcs
    obtain ⟨next, sub', hnext, hrest, -⟩ := exists_nextName sub
    rw [joinPath_cons, List.length_append, List.length_cons] at hbound
    obtain ⟨new', hname, hle, hnew'⟩ := washName_eq new name (by omega)
    rw [hname, ok_bind]
    dsimp only
    rw [← hnew', hnext]
    dsimp only
    rw [ih hrest (by omega)]

/-- Whatever is washed within bounds has components that fit into `name`. -/
theorem length_le_of_washLoopIn {fuel : ℕ} : ∀ {new name : List UInt8} {sub : Option (List UInt8)},
    name ≠ [] → washLoopIn fuel new name sub = .ok washed →
    ∀ c ∈ restComponents sub, c.length ≤ 15 := by
  induction fuel with
  | zero => exact fun _ h => nomatch h
  | succ fuel ih =>
    intro new name sub hne h
    rw [washLoopIn, if_neg hne] at h
    obtain ⟨new', -, h⟩ := bind_eq_ok.1 h
    obtain ⟨next, sub', hnext, hrest, -⟩ := exists_nextName sub
    rw [hnext] at h
    obtain ⟨_, hfits, h⟩ := bind_eq_ok.1 h
    have h16 : next.length < 16 := access_eq_ok.1 hfits
    rw [hrest]
    by_cases hnext' : next = []
    · rw [if_pos hnext']
      exact fun c hc => absurd hc List.not_mem_nil
    · rw [if_neg hnext']
      intro c hc
      rcases List.mem_cons.1 hc with rfl | hc
      · omega
      · exact ih hnext' h c hc

theorem washPathIn_eq (hhead : path.head? = some slash) (hlen : path.length < maxPathLen) :
    washPathIn path = washPath path := by
  obtain ⟨name, sub, hparse, -, hcomp, -⟩ := exists_pathParse path
  have hjoin := length_joinPath_le_of_isPrefix hhead (List.prefix_refl _)
  have hroot : pathBytes [slash] = 0 := if_pos rfl
  unfold washPathIn washPath
  rw [hparse]
  dsimp only
  rw [strcat_eq (show ([] : List UInt8).length + [slash].length < maxPathLen by decide), ok_bind,
    List.nil_append, washLoopIn_eq hcomp (by omega)]

theorem length_le_of_washPathIn (h : washPathIn path = .ok washed) :
    ∀ c ∈ components path, c.length ≤ 15 := by
  obtain ⟨name, sub, hparse, -, hcomp, -⟩ := exists_pathParse path
  obtain ⟨_, -, h⟩ := bind_eq_ok.1 h
  rw [hparse] at h
  obtain ⟨_, hfits, h⟩ := bind_eq_ok.1 h
  have h16 : name.length < 16 := access_eq_ok.1 hfits
  rw [hcomp]
  by_cases hne : name = []
  · rw [if_pos hne]
    exact fun c hc => absurd hc List.not_mem_nil
  · rw [if_neg hne] at h ⊢
    obtain ⟨new, -, h⟩ := bind_eq_ok.1 h
    intro c hc
    rcases List.mem_cons.1 hc with rfl | hc
    · omega
    · exact length_le_of_washLoopIn hne h c hc

end Wash

/-! ## The path that the kernel gets -/

section AbsPath

variable {cwd path final : List UInt8}

/-- The text that `make_clear_abs_path` assembles in `abs_path`. -/
def joinedPath (cwd path : List UInt8) : List UInt8 :=
  if path.head? = some slash then path else (if cwd = [slash] then [] else cwd) ++ slash :: path

theorem strcat_bind_eq_ok {dst src r : List UInt8} {f : List UInt8 → Outcome (List UInt8)} :
    (strcat dst src >>= f) = .ok r ↔
      (dst ++ src).length < maxPathLen ∧ f (dst ++ src) = .ok r := by
  rw [List.length_append]
  constructor
  · intro h
    obtain ⟨cat, hcat, h⟩ := bind_eq_ok.1 h
    obtain ⟨_, hfits, hcat⟩ := bind_eq_ok.1 hcat
    obtain rfl := pure_eq_ok.1 hcat
    exact ⟨access_eq_ok.1 hfits, h⟩
  · rintro ⟨hfits, h⟩
    exact bind_eq_ok.2 ⟨_, strcat_eq hfits, h⟩

/-- The path is assembled when it fits into `abs_path`, and only then. -/
theorem makeClearAbsPath_eq_ok : makeClearAbsPath cwd path = .ok final ↔
    (joinedPath cwd path).length < maxPathLen ∧ washPathIn (joinedPath cwd path) = .ok final := by
  unfold makeClearAbsPath joinedPath
  by_cases habs : path.head? = some slash
  · rw [if_neg (not_not.2 habs), if_pos habs, pure_bind, strcat_bind_eq_ok, List.nil_append]
  rw [if_pos habs, if_neg habs]
  by_cases hroot : cwd = [slash]
  · subst hroot
    rw [if_neg (not_not.2 rfl), if_pos rfl, pure_bind, strcat_bind_eq_ok]
    rfl
  · rw [if_pos hroot, if_neg hroot, strcat_bind_eq_ok, strcat_bind_eq_ok, List.append_assoc,
      List.singleton_append]
    constructor
    · rintro ⟨-, h⟩
      exact h
    · rintro ⟨hfits, h⟩
      refine ⟨?_, hfits, h⟩
      rw [List.length_append, List.length_cons] at hfits
      rw [List.length_append, List.length_singleton]
      omega

/-- `search_file` answers at once for the path, or its assertion holds. -/
def SearchAccepts (pathname : List UInt8) : Prop :=
  isRootPath pathname = true ∨
    pathname.head? = some slash ∧ 1 < pathname.length ∧ pathname.length < maxPathLen

/-- `make_clear_abs_path` stays inside of its buffers, and what it leaves in `final_path` passes
the assertion of `search_file`. -/
def FitsBuffers (cwd path : List UInt8) : Prop :=
  ∃ final, makeClearAbsPath cwd path = .ok final ∧ final.length < maxPathLen ∧
    SearchAccepts final

/-- A relative path, the working directory and the slash between them are together shorter than
the buffer, and none of their components is longer than `name`. -/
structure BufferRoom (cwd path : List UInt8) : Prop where
  length : path.length + (if path.head? = some slash then 0 else pathBytes cwd + 1) < maxPathLen
  names : ∀ c ∈ (if path.head? = some slash then [] else components cwd) ++ components path,
    c.length ≤ 15

theorem length_joinedPath (cwd path : List UInt8) : (joinedPath cwd path).length =
    path.length + (if path.head? = some slash then 0 else pathBytes cwd + 1) := by
  unfold joinedPath pathBytes
  split
  · rfl
  · rw [List.length_append, List.length_cons]
    split
    · rw [List.length_nil]
      omega
    · omega

theorem components_joinedPath (cwd path : List UInt8) : components (joinedPath cwd path) =
    (if path.head? = some slash then [] else components cwd) ++ components path := by
  unfold joinedPath
  split
  · rfl
  split
  · next hroot =>
    subst hroot
    exact components_slash path
  · exact components_append_slash cwd path

theorem head_joinedPath (hcwd : cwd.head? = some slash) :
    (joinedPath cwd path).head? = some slash := by
  unfold joinedPath
  split
  · next habs => exact habs
  split
  · rfl
  · rw [List.head?_append, hcwd]
    rfl

theorem bufferRoom_of_makeClearAbsPath (h : makeClearAbsPath cwd path = .ok final) :
    BufferRoom cwd path := by
  obtain ⟨hlen, hwash⟩ := makeClearAbsPath_eq_ok.1 h
  rw [length_joinedPath] at hlen
  have hnames := length_le_of_washPathIn hwash
  rw [components_joinedPath] at hnames
  exact ⟨hlen, hnames⟩

theorem searchAccepts_of_head (hhead : path.head? = some slash) (hlen : path.length < maxPathLen) :
    SearchAccepts path := by
  by_cases hroot : path = [slash]
  · subst hroot
    exact Or.inl rfl
  · refine Or.inr ⟨hhead, ?_, hlen⟩
    obtain ⟨rest, rfl⟩ := List.head?_eq_some_iff.1 hhead
    have hne : rest ≠ [] := fun h => hroot (by rw [h])
    have hpos := List.length_pos_iff.2 hne
    rw [List.length_cons]
    omega

/-- **When a shell path fits its buffers.** `sub_pathname` of `ls -l` is not among them. -/
theorem fitsBuffers_iff (cwd path : List UInt8) (hcwd : cwd.head? = some slash) :
    FitsBuffers cwd path ↔ BufferRoom cwd path := by
  constructor
  · rintro ⟨final, hrun, -⟩
    exact bufferRoom_of_makeClearAbsPath hrun
  · rintro ⟨hlen, hnames⟩
    rw [← length_joinedPath] at hlen
    rw [← components_joinedPath] at hnames
    have hhead : (joinedPath cwd path).head? = some slash := head_joinedPath hcwd
    have hwash := (washPathIn_eq hhead hlen).trans (washPath_of_components hhead hnames)
    rw [canonical_eq_lexicalStack] at hwash
    have hfinal := (length_absPath_lexicalStack hhead).trans_lt hlen
    refine ⟨_, makeClearAbsPath_eq_ok.2 ⟨hlen, hwash⟩, hfinal, searchAccepts_of_head ?_ hfinal⟩
    cases lexicalStack (joinedPath cwd path) <;> rfl

end AbsPath

/-- `cd b` in `"/a"`. -/
theorem fitsBuffers_short : FitsBuffers [47, 97] [98] :=
  (fitsBuffers_iff [47, 97] [98] rfl).2 ⟨by decide, by decide⟩

/-- `cd a/a/…/` in `"/abcdefgh"`, with a command line of 511 characters. -/
theorem not_fitsBuffers_long :
    ¬ FitsBuffers [47, 97, 98, 99, 100, 101, 102, 103, 104]
      (List.replicate 254 [97, 47]).flatten := by
  rintro ⟨final, hrun, -⟩
  exact absurd (bufferRoom_of_makeClearAbsPath hrun).length (by decide +kernel)

end Gardos.Shell
