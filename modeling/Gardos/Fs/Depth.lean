import Gardos.Fs.Cwd

/-!
# Where a lookup stopped

`sys_open` and `sys_mkdir` tell a missing last name from a missing directory on the way by comparing
two depths: that of the path, and that of `searched_path`, which `search_file` puts together from
the components it looks up. `depth_decides`: the two agree exactly if the last component was looked
up.
-/

namespace Gardos.Fs

open Bytes Outcome

/-- The names that the loop of `search_file` passes to `search_dir_entry`, in order. -/
def visitLoop : (fuel : ℕ) → FileSys → (name : List UInt8) → (subPath : Option (List UInt8)) →
    (parentDir : DirPtr) → Outcome (List (List UInt8))
  | 0, _, _, _, _ => throw .hang
  | fuel + 1, s, name, subPath, parentDir => do
    if name = [] then
      return []
    match searchDirEntry s.part.disk (s.inodes (s.dirInode parentDir)) name with
    | none => return [name]
    | some dirE =>
      let (next, subPath) := nextName subPath
      if dirE.fType = FileTypes.directory.code then
        let (parentDir, s) ← dirOpen (dirClose s parentDir) dirE.iNo
        return name :: (← visitLoop fuel s next subPath parentDir)
      else if dirE.fType = FileTypes.regular.code then
        return [name]
      else
        return name :: (← visitLoop fuel s next subPath parentDir)

/-- The components that `search_file` looks up. -/
def visited (s : FileSys) (pathname : List UInt8) : Outcome (List (List UInt8)) :=
  if isRootPath pathname then
    pure []
  else
    visitLoop (pathname.length + 1) s (pathParse pathname).1 (pathParse pathname).2 .rootDir

section Visits

variable {s s' : FileSys} {path : List UInt8} {uninit : Uninit} {no : Option ℕ}
  {record record' : PathSearchRecord}

theorem visitLoop_nil {fuel : ℕ} {sub : Option (List UInt8)} {dir : DirPtr} :
    visitLoop (fuel + 1) s [] sub dir = .ok [] := by
  rw [visitLoop, if_pos rfl]
  rfl

/-- What is left after one component, when the next has been parsed. -/
theorem restComponents_of_nextName {sub sub' : Option (List UInt8)} {next : List UInt8}
    (h : nextName sub = (next, sub')) :
    restComponents sub = if next = [] then [] else next :: restComponents sub' := by
  obtain ⟨c, sub'', hnext, hrest, -⟩ := exists_nextName sub
  obtain ⟨rfl, rfl⟩ := Prod.mk.inj (h.symm.trans hnext)
  exact hrest

theorem searchedPath_cons (searched name : List UInt8) (cs : List (List UInt8)) :
    (searched ++ slash :: name) ++ joinPath cs = searched ++ joinPath (name :: cs) := by
  rw [joinPath_cons, List.append_assoc]

/-- **The loop of `search_file`** adds to `searched_path` what it looks up, and takes it from the
beginning of what is left of the path. -/
theorem searchLoop_visits {fuel : ℕ} : ∀ {s : FileSys} {name : List UInt8}
    {sub : Option (List UInt8)} {record : PathSearchRecord} {parentInodeNo iNo : ℕ},
    searchLoop fuel s name sub record parentInodeNo iNo = .ok (no, record', s') →
    ∃ cs, visitLoop fuel s name sub record.parentDir = .ok cs ∧
      record'.searchedPath = record.searchedPath ++ joinPath cs ∧ (name ≠ [] → cs ≠ []) ∧
      cs <+: if name = [] then [] else name :: restComponents sub := by
  induction fuel with
  | zero => exact fun hrun => nomatch hrun
  | succ fuel ih =>
    intro s name sub record parentInodeNo iNo hrun
    by_cases hname : name = []
    · subst hname
      rw [searchLoop, if_pos rfl] at hrun
      obtain ⟨⟨dir, s₁⟩, -, hrun⟩ := bind_eq_ok.1 hrun
      obtain ⟨-, rfl, -⟩ := ok_triple hrun
      exact ⟨[], visitLoop_nil, (List.append_nil _).symm, fun h => absurd rfl h, List.prefix_refl _⟩
    rw [searchLoop, if_neg hname] at hrun
    rw [visitLoop, if_neg hname, if_neg hname]
    obtain ⟨_, -, hrun⟩ := bind_eq_ok.1 hrun
    dsimp only at hrun
    have hstop : [name] <+: name :: restComponents sub :=
      List.cons_prefix_cons.2 ⟨rfl, List.nil_prefix⟩
    have hone : record.searchedPath ++ slash :: name =
        record.searchedPath ++ joinPath [name] := by
      rw [← searchedPath_cons]
      exact (List.append_nil _).symm
    cases hfound : searchDirEntry s.part.disk (s.inodes (s.dirInode record.parentDir)) name with
    | none =>
      rw [hfound] at hrun
      obtain ⟨-, rfl, -⟩ := ok_triple hrun
      exact ⟨[name], rfl, hone, by simp, hstop⟩
    | some dirE =>
      rw [hfound] at hrun
      obtain ⟨next, sub', hnext⟩ : ∃ next sub', nextName sub = (next, sub') := ⟨_, _, rfl⟩
      have hrest := restComponents_of_nextName hnext
      rw [hnext] at hrun ⊢
      dsimp only at hrun ⊢
      obtain ⟨_, -, hrun⟩ := bind_eq_ok.1 hrun
      -- when the loop goes on, `name` stands before what it looks up later
      have hcons : ∀ {cs}, (cs <+: if next = [] then [] else next :: restComponents sub') →
          name :: cs <+: name :: restComponents sub := fun h =>
        List.cons_prefix_cons.2 ⟨rfl, hrest ▸ h⟩
      by_cases hdir : dirE.fType = FileTypes.directory.code
      · rw [if_pos hdir] at hrun ⊢
        obtain ⟨⟨dir, s₁⟩, hopen, hrun⟩ := bind_eq_ok.1 hrun
        obtain ⟨cs, hvisit, hpath, -, hpre⟩ := ih hrun
        refine ⟨name :: cs, ?_, hpath.trans (searchedPath_cons _ _ _), by simp, hcons hpre⟩
        rw [hopen, ok_bind]
        exact bind_eq_ok.2 ⟨cs, hvisit, rfl⟩
      rw [if_neg hdir] at hrun ⊢
      by_cases hreg : dirE.fType = FileTypes.regular.code
      · rw [if_pos hreg] at hrun ⊢
        obtain ⟨-, rfl, -⟩ := ok_triple hrun
        exact ⟨[name], rfl, hone, by simp, hstop⟩
      · rw [if_neg hreg] at hrun ⊢
        obtain ⟨cs, hvisit, hpath, -, hpre⟩ := ih hrun
        refine ⟨name :: cs, ?_, hpath.trans (searchedPath_cons _ _ _), by simp, hcons hpre⟩
        exact bind_eq_ok.2 ⟨cs, hvisit, rfl⟩

theorem searchFile_visits (hr : isRootPath path = false) (hne : components path ≠ [])
    (hrun : searchFile s uninit path = .ok (no, record, s')) :
    ∃ cs, visited s path = .ok cs ∧ record.searchedPath = joinPath cs ∧ cs ≠ [] ∧
      cs <+: components path := by
  obtain ⟨name, sub, hparse, -, hcomp, -⟩ := exists_pathParse path
  have hname : name ≠ [] := fun h => hne (by rw [hcomp, if_pos h])
  unfold searchFile at hrun
  rw [if_neg (by simp [hr])] at hrun
  obtain ⟨_, -, hrun⟩ := bind_eq_ok.1 hrun
  rw [hparse] at hrun
  dsimp only at hrun
  obtain ⟨_, -, hrun⟩ := bind_eq_ok.1 hrun
  obtain ⟨cs, hvisit, hpath, hcs, hpre⟩ := searchLoop_visits hrun
  refine ⟨cs, ?_, hpath, hcs hname, hcomp ▸ hpre⟩
  rw [visited, if_neg (by simp [hr]), hparse]
  exact hvisit

end Visits

section Depth

variable {path : List UInt8} {cs : List (List UInt8)}

theorem length_joinPath_le_of_isPrefix (hhead : path.head? = some slash)
    (hpre : cs <+: components path) : (joinPath cs).length ≤ path.length := by
  obtain ⟨rest, rfl⟩ := List.head?_eq_some_iff.1 hhead
  obtain ⟨more, hmore⟩ := hpre
  have hle := length_joinPath_le (le_refl rest.length)
  rw [components_slash] at hmore
  rw [← hmore, joinPath_append, List.length_append] at hle
  rw [List.length_cons]
  omega

/-- **The depth comparison decides where a lookup stopped.** `search_file` returns, `searched_path`
is joined from the components that were looked up, a beginning of those of the path, and the two
depths agree exactly if that is the whole path. -/
theorem depth_decides :
    (∀ (s : FileSys) (t : Tree ℕ (List UInt8)) (r : ℕ → ℕ), DirTree s.part.vol t → Cache s r →
      ∀ path, PathOk path → components path ≠ [] → isRootPath path = false → ∀ uninit,
        ∃ no record s' cs, searchFile s uninit path = .ok (no, record, s') ∧
          visited s path = .ok cs ∧ cs ≠ [] ∧ cs <+: components path ∧
          record.searchedPath = joinPath cs ∧ components record.searchedPath = cs ∧
          record.searchedPath.length ≤ path.length ∧
          ∀ uninit', ∃ m n, pathDepthCnt uninit' path = .ok m ∧
            pathDepthCnt uninit' record.searchedPath = .ok n ∧
            (m = n ↔ cs.length = (components path).length)) ∧
    (∀ (str : List UInt8) (uninit : Uninit), components str ≠ [] →
      (∀ c ∈ components str, c.length ≤ 15) →
      pathDepthCnt uninit str = .ok (components str).length) := by
  have hdepth : ∀ (str : List UInt8) (uninit : Uninit), components str ≠ [] →
      (∀ c ∈ components str, c.length ≤ 15) →
      pathDepthCnt uninit str = .ok (components str).length := fun str uninit hne h15 =>
    pathDepthCnt_eq uninit hne fun c hc => (h15 c hc).trans (by omega)
  refine ⟨fun s t r hD hc path hp hne hr uninit => ?_, hdepth⟩
  obtain ⟨record, s', hrun, -⟩ := exists_searchFile hD hc hp hr uninit fun h => absurd h hne
  obtain ⟨cs, hvisit, hpath, hcs, hpre⟩ := searchFile_visits hr hne hrun
  have hnames := isName_of_isPrefix hp hpre
  have hcomp : components record.searchedPath = cs := by
    rw [hpath]
    exact components_joinPath fun c hc => ⟨(hnames c hc).1.ne_nil, (hnames c hc).2⟩
  refine ⟨_, record, s', cs, hrun, hvisit, hcs, hpre, hpath, hcomp,
    hpath ▸ length_joinPath_le_of_isPrefix hp.head hpre, fun uninit' => ?_⟩
  refine ⟨_, _, hdepth path uninit' hne hp.components, hdepth _ uninit' (hcomp ▸ hcs) ?_, ?_⟩
  · rw [hcomp]
    exact fun c hc => (hnames c hc).1.length_le
  · rw [hcomp]
    exact eq_comm

end Depth

/-- On a fresh partition the lookup of `"/a/b"` stops at `"/a"`. -/
theorem depth_decides_missing : ∃ no record s',
    searchFile smallRun.fs noUninit [47, 97, 47, 98] = .ok (no, record, s') ∧
      record.searchedPath = pathA ∧
      ∃ m n, pathDepthCnt noUninit [47, 97, 47, 98] = .ok m ∧
        pathDepthCnt noUninit record.searchedPath = .ok n ∧ m ≠ n := by
  obtain ⟨no, record, s', cs, hrun, hvisit, -, -, hpath, -, -, hdepth⟩ := depth_decides.1
    smallRun.fs _ _ smallRun_runOk.fs.rep.dirTree smallRun_runOk.fs.cache [47, 97, 47, 98]
    ⟨rfl, by decide, by decide, by decide⟩ (by decide) (by decide) noUninit
  obtain ⟨cs', hvisit', hcs⟩ := exists_of_holds (o := visited smallRun.fs [47, 97, 47, 98])
    (f := fun cs => cs = [[97]]) (by decide +kernel)
  obtain rfl := Except.ok.inj (hvisit.symm.trans hvisit')
  obtain rfl : cs = [[97]] := of_decide_eq_true hcs
  obtain ⟨m, n, hm, hn, hiff⟩ := hdepth noUninit
  exact ⟨no, record, s', hrun, hpath, m, n, hm, hn, fun h => absurd (hiff.1 h) (by decide)⟩

end Gardos.Fs
