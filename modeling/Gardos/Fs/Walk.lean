import Gardos.Fs.Cache
import Gardos.Fs.DirContent
import Gardos.Fs.Components

/-!
# Walking a path

`DirTree` says that the directories of a volume form a tree, and `search_file` is compared with
the walk through this tree. The routine looks up one component after the other; it stops at the
first that is missing, and at the first that is a regular file, whether or not the path goes on
(`Tree.search`). When it returns, the directory of the last lookup is open, and the cache is
otherwise as before (`exists_searchFile`).
-/

namespace Gardos

open Fs

/-! ## Trees with names of bytes -/

/-- The step that a component of a path asks for. -/
def stepOf (c : List UInt8) : PathStep (List UInt8) :=
  if c = dot then .self else if c = dotDot then .up else .down c

namespace Tree

variable {t : Tree ℕ (List UInt8)} {d n : ℕ} {k : Kind} {c : List UInt8} {cs : List (List UInt8)}

/-- What directory `d` maps a name to, `"."` and `".."` included. -/
def entries (t : Tree ℕ (List UInt8)) (d : ℕ) (c : List UInt8) : Option (ℕ × Kind) :=
  (t.look d (stepOf c)).bind fun n => (t.kind n).map fun k => (n, k)

theorem entries_eq_some : t.entries d c = some (n, k) ↔
    t.look d (stepOf c) = some n ∧ t.kind n = some k := by
  simp only [entries, Option.bind_eq_some_iff, Option.map_eq_some_iff, Prod.mk.injEq]
  constructor
  · rintro ⟨m, hm, k', hk, rfl, rfl⟩
    exact ⟨hm, hk⟩
  · rintro ⟨hn, hk⟩
    exact ⟨n, hn, k, hk, rfl, rfl⟩

theorem Wf.entries_eq_none (h : t.Wf) : t.entries d c = none ↔ t.look d (stepOf c) = none := by
  constructor
  · intro he
    by_contra hne
    obtain ⟨n, hn⟩ := Option.ne_none_iff_exists'.1 hne
    obtain ⟨k, hk⟩ := Option.ne_none_iff_exists'.1 (h.kind_of_look hn)
    rw [entries_eq_some.2 ⟨hn, hk⟩] at he
    cases he
  · intro he
    rw [entries, he, Option.bind_none]

/-- What a search finds: the object with its kind, the directory in which the last component was
looked up, and the components that were looked up. -/
structure SearchResult where
  found : Option (ℕ × Kind)
  dir : ℕ
  path : List (List UInt8)

/-- The search of `search_file` from directory `d`, which was found in directory `parent`. -/
def search (t : Tree ℕ (List UInt8)) (parent d : ℕ) : List (List UInt8) → SearchResult
  | [] => ⟨some (d, .dir), parent, []⟩
  | c :: cs =>
    match t.entries d c with
    | none => ⟨none, d, [c]⟩
    | some (n, .file) => ⟨some (n, .file), d, [c]⟩
    | some (n, .dir) => { t.search d n cs with path := c :: (t.search d n cs).path }

/-- The path goes on after a component that names a regular file. -/
def FileMidway (t : Tree ℕ (List UInt8)) (d : ℕ) (cs : List (List UInt8)) : Prop :=
  ∃ pre suf n, cs = pre ++ suf ∧ suf ≠ [] ∧ t.walk d (pre.map stepOf) = some n ∧
    t.kind n = some .file

theorem look_of_file (hk : t.kind n = some .file) (x : PathStep (List UInt8)) :
    t.look n x = none := by
  unfold look
  rw [if_neg]
  rw [hk]
  exact fun h => nomatch h

/-- A directory lists a file under its own name only. -/
theorem Wf.child_of_entries (h : t.Wf) (hd : t.kind d = some .dir)
    (he : t.entries d c = some (n, .file)) : c ≠ dot ∧ c ≠ dotDot ∧ t.child d c = some n := by
  obtain ⟨hlook, hk⟩ := entries_eq_some.1 he
  by_cases hdot : c = dot
  · rw [hdot, show stepOf dot = .self from rfl, look_self hd] at hlook
    rw [← Option.some.inj hlook, hd] at hk
    cases hk
  by_cases hdotDot : c = dotDot
  · rw [hdotDot, show stepOf dotDot = .up from rfl, look_up hd] at hlook
    rw [← Option.some.inj hlook, h.parent_kind hd] at hk
    cases hk
  rw [stepOf, if_neg hdot, if_neg hdotDot, look_down hd] at hlook
  exact ⟨hdot, hdotDot, hlook⟩

/-- A walk does not leave a regular file. -/
theorem walk_of_file (hk : t.kind n = some .file) {xs : List (PathStep (List UInt8))}
    (hne : xs ≠ []) : t.walk n xs = none := by
  obtain ⟨x, xs, rfl⟩ := List.exists_cons_of_ne_nil hne
  rw [walk, look_of_file hk, Option.bind_none]

theorem walk_cons_of_entries (h : t.entries d c = some (n, k)) (cs : List (List UInt8)) :
    t.walk d ((c :: cs).map stepOf) = t.walk n (cs.map stepOf) := by
  rw [List.map_cons, walk, (entries_eq_some.1 h).1, Option.bind_some]

/-- **The search**: it has walked to the directory of the last lookup, and has found what this
directory maps the last component to. -/
theorem search_spec (t : Tree ℕ (List UInt8)) {cs : List (List UInt8)} : ∀ {parent d : ℕ},
    t.kind d = some .dir → cs ≠ [] →
    ∃ init c, (t.search parent d cs).path = init ++ [c] ∧ init ++ [c] <+: cs ∧
      t.walk d (init.map stepOf) = some (t.search parent d cs).dir ∧
      t.kind (t.search parent d cs).dir = some .dir ∧
      (t.search parent d cs).found = t.entries (t.search parent d cs).dir c ∧
      (∀ n, (t.search parent d cs).found = some (n, .dir) → init ++ [c] = cs) := by
  induction cs with
  | nil => exact fun _ h => absurd rfl h
  | cons c cs ih =>
    intro parent d hd _
    rw [search]
    split
    · rename_i he
      exact ⟨[], c, rfl, by simp, rfl, hd, he.symm, fun n h => nomatch h⟩
    · rename_i n he
      exact ⟨[], c, rfl, by simp, rfl, hd, he.symm, fun m h => nomatch h⟩
    · rename_i n he
      have hn : t.kind n = some .dir := (entries_eq_some.1 he).2
      by_cases hcs : cs = []
      · subst hcs
        exact ⟨[], c, rfl, List.prefix_rfl, rfl, hd, he.symm, fun _ _ => rfl⟩
      · obtain ⟨init, c', hpath, hpre, hwalk, hk, hfound, hend⟩ := @ih d n hn hcs
        refine ⟨c :: init, c', by simp [hpath], ?_, ?_, hk, hfound, fun m hm => ?_⟩
        · exact (List.cons_prefix_cons).2 ⟨rfl, hpre⟩
        · rw [walk_cons_of_entries he, hwalk]
        · rw [List.cons_append, hend m hm]

theorem fileMidway_cons (hwf : t.Wf) (hd : t.kind d = some .dir) :
    t.FileMidway d (c :: cs) ↔
      (∃ n, t.entries d c = some (n, .file) ∧ cs ≠ []) ∨
      ∃ n, t.entries d c = some (n, .dir) ∧ t.FileMidway n cs := by
  constructor
  · rintro ⟨pre, suf, m, happ, hsuf, hwalk, hm⟩
    cases pre with
    | nil =>
      obtain rfl : d = m := Option.some.inj hwalk
      rw [hd] at hm
      cases hm
    | cons x pre =>
      obtain ⟨rfl, rfl⟩ := List.cons.inj happ
      rw [List.map_cons, walk] at hwalk
      obtain ⟨n, hn, hwalk⟩ := Option.bind_eq_some_iff.1 hwalk
      obtain ⟨k, hk⟩ := Option.ne_none_iff_exists'.1 (hwf.kind_of_look hn)
      cases k with
      | file =>
        refine Or.inl ⟨n, entries_eq_some.2 ⟨hn, hk⟩, ?_⟩
        simp [hsuf]
      | dir => exact Or.inr ⟨n, entries_eq_some.2 ⟨hn, hk⟩, pre, suf, m, rfl, hsuf, hwalk, hm⟩
  · rintro (⟨n, he, hne⟩ | ⟨n, he, pre, suf, m, rfl, hsuf, hwalk, hm⟩)
    · refine ⟨[c], cs, n, rfl, hne, ?_, (entries_eq_some.1 he).2⟩
      rw [walk_cons_of_entries he]
      rfl
    · exact ⟨c :: pre, suf, m, rfl, hsuf, by rwa [walk_cons_of_entries he], hm⟩

/-- The search ends early exactly at a regular file in the middle of the path. -/
theorem fileMidway_iff (hwf : t.Wf) {cs : List (List UInt8)} : ∀ {parent d : ℕ},
    t.kind d = some .dir → (t.FileMidway d cs ↔
      (∃ n, (t.search parent d cs).found = some (n, .file)) ∧
      (t.search parent d cs).path ≠ cs) := by
  induction cs with
  | nil =>
    intro parent d _
    refine iff_of_false ?_ fun h => h.2 rfl
    rintro ⟨pre, suf, n, happ, hsuf, -⟩
    exact hsuf (List.append_eq_nil_iff.1 happ.symm).2
  | cons c cs ih =>
    intro parent d hd
    rw [fileMidway_cons hwf hd, search]
    split
    · rename_i he
      simp [he]
    · rename_i n he
      simp [he, eq_comm]
    · rename_i n he
      rw [he]
      have hn : t.kind n = some .dir := (entries_eq_some.1 he).2
      simp [@ih d n hn]

/-- Without such a file, the search finds what the whole path names. -/
theorem search_found_eq (hwf : t.Wf) : ∀ {parent d : ℕ},
    t.kind d = some .dir → ¬ t.FileMidway d cs → (t.search parent d cs).found =
      (t.walk d (cs.map stepOf)).bind fun n => (t.kind n).map fun k => (n, k) := by
  induction cs with
  | nil =>
    intro parent d hd _
    change some (d, Kind.dir) = (t.kind d).map _
    rw [hd]
    rfl
  | cons c cs ih =>
    intro parent d hd hmid
    rw [fileMidway_cons hwf hd, not_or] at hmid
    obtain ⟨hfile, hdir⟩ := hmid
    rw [search]
    split
    · rename_i he
      rw [hwf.entries_eq_none] at he
      rw [List.map_cons, walk, he]
      rfl
    · rename_i n he
      obtain rfl : cs = [] := by
        by_contra hcs
        exact hfile ⟨n, he, hcs⟩
      rw [walk_cons_of_entries he]
      change some (n, Kind.file) = (t.kind n).map _
      rw [(entries_eq_some.1 he).2]
      rfl
    · rename_i n he
      rw [walk_cons_of_entries he]
      exact ih (entries_eq_some.1 he).2 fun hm => hdir ⟨n, he, hm⟩

/-- What the search finds, it finds in the directory that it leaves open. -/
theorem exists_search_last (hwf : t.Wf) {parent : ℕ} (hd : t.kind d = some .dir) (hne : cs ≠ [])
    (hmid : ¬ t.FileMidway d cs) {e : ℕ × Kind} (hf : (t.search parent d cs).found = some e) :
    ∃ init c, cs = init ++ [c] ∧ t.walk d (init.map stepOf) = some (t.search parent d cs).dir ∧
      t.kind (t.search parent d cs).dir = some .dir ∧
      t.entries (t.search parent d cs).dir c = some e := by
  obtain ⟨init, c, hpath, -, hwalk, hk, hfound, hend⟩ := @search_spec t cs parent d hd hne
  obtain ⟨n, k⟩ := e
  refine ⟨init, c, ?_, hwalk, hk, by rw [← hfound, hf]⟩
  cases k with
  | file =>
    rw [← hpath]
    by_contra hcs
    exact hmid ((@fileMidway_iff t hwf cs parent d hd).2 ⟨⟨n, hf⟩, Ne.symm hcs⟩)
  | dir => exact (hend n hf).symm

/-- A search that looks nothing up ends at a directory. -/
theorem search_ne_file {parent : ℕ} (h : (t.search parent d cs).path = []) (n : ℕ) :
    (t.search parent d cs).found ≠ some (n, .file) := by
  cases cs with
  | nil => exact fun hf => nomatch hf
  | cons c cs =>
    rw [search] at h
    split at h <;> cases h

end Tree

namespace Fs

open Bytes Outcome

/-! ## Directories on a volume -/

/-- The directories of a volume form the tree `t`. -/
structure DirTree (v : Volume) (t : Tree ℕ (List UInt8)) : Prop where
  wf : t.Wf
  root : t.root = 0
  lt : ∀ n, t.kind n ≠ none → n < 4096
  iNo : ∀ n, t.kind n ≠ none → (v.inode n).iNo = n
  blocks : ∀ n, t.kind n = some .dir → BlocksOk v (v.inode n)
  holds : ∀ n, t.kind n = some .dir → HoldsEntries v.data (v.inode n) (t.entries n)

theorem ne_none_of_eq_some {α : Type*} {o : Option α} {a : α} (h : o = some a) : o ≠ none := by
  rw [h]
  exact Option.some_ne_none a

/-! ## What a search keeps -/

section SearchRule

variable {I : FileSys → DirPtr → Prop} {no : Option ℕ} {record' : PathSearchRecord} {s' : FileSys}

/-- The state changes when the search goes from one directory to the next, and in no other way. -/
theorem searchLoop_rule (hstep : ∀ {s dir n dir' s'}, I s dir →
    dirOpen (dirClose s dir) n = .ok (dir', s') → I s' dir') {fuel : ℕ} :
    ∀ {s : FileSys} {name : List UInt8} {subPath : Option (List UInt8)}
      {record : PathSearchRecord} {parentInodeNo iNo : ℕ}, I s record.parentDir →
    searchLoop fuel s name subPath record parentInodeNo iNo = .ok (no, record', s') →
    I s' record'.parentDir := by
  induction fuel with
  | zero => exact fun _ hrun => nomatch hrun
  | succ fuel ih =>
    intro s name subPath record parentInodeNo iNo h hrun
    rw [searchLoop] at hrun
    split at hrun
    · obtain ⟨⟨dir, s₁⟩, hopen, hrun⟩ := bind_eq_ok.1 hrun
      obtain ⟨-, rfl, rfl⟩ := ok_triple hrun
      exact hstep h hopen
    obtain ⟨_, -, hrun⟩ := bind_eq_ok.1 hrun
    dsimp only at hrun
    split at hrun
    · obtain ⟨-, rfl, rfl⟩ := ok_triple hrun
      exact h
    obtain ⟨_, -, hrun⟩ := bind_eq_ok.1 hrun
    split at hrun
    · obtain ⟨⟨dir, s₁⟩, hopen, hrun⟩ := bind_eq_ok.1 hrun
      exact ih (hstep h hopen) hrun
    split at hrun
    · obtain ⟨-, rfl, rfl⟩ := ok_triple hrun
      exact h
    · refine ih ?_ hrun
      exact h

/-- **The rule for `search_file`**: what holds with the root directory, and is kept from one
directory to the next, holds with the directory that the search leaves open. -/
theorem searchFile_rule (hstep : ∀ {s dir n dir' s'}, I s dir →
    dirOpen (dirClose s dir) n = .ok (dir', s') → I s' dir') {s : FileSys} {uninit : Uninit}
    {path : List UInt8} (h : I s .rootDir)
    (hrun : searchFile s uninit path = .ok (no, record', s')) : I s' record'.parentDir := by
  unfold searchFile at hrun
  split at hrun
  · obtain ⟨-, rfl, rfl⟩ := ok_triple hrun
    exact h
  · obtain ⟨_, -, hrun⟩ := bind_eq_ok.1 hrun
    obtain ⟨_, -, hrun⟩ := bind_eq_ok.1 hrun
    refine searchLoop_rule hstep ?_ hrun
    exact h

end SearchRule

/-! ## A search in a tree -/

section Search

variable {s : FileSys} {r : ℕ → ℕ} {t : Tree ℕ (List UInt8)}

/-- An open directory is read as its slot says. -/
theorem DirTree.holds_cell (hD : DirTree s.part.vol t) (hc : Cache s r) {q : ℕ}
    (hq : q ∈ s.openInodes) (hk : t.kind (s.inodes q).iNo = some .dir) :
    HoldsEntries s.part.disk (s.inodes q) (t.entries (s.inodes q).iNo) := by
  have hsame := hc.same q hq
  have hB := hD.blocks _ hk
  have hall : ∀ k < 140, allBlocks s.part.disk (s.inodes q) k =
      allBlocks s.part.vol.data (s.part.vol.inode (s.inodes q).iNo) k := fun k _ => by
    rw [← hB.allBlocks_vol]
    exact allBlocks_congr hsame.iSectors fun _ => rfl
  refine (hD.holds _ hk).congr hall fun k hk' hne => ?_
  exact Partition.disk_of_used (hB.used k hk' hne)

theorem DirTree.exists_dirOpen (hD : DirTree s.part.vol t) (hc : Cache s r) {n : ℕ}
    (hn : t.kind n ≠ none) :
    ∃ q s', dirOpen s n = .ok (.heap q, s') ∧ CacheStep s s' ∧ Cache s' (hold r q) ∧
      (s'.inodes q).iNo = n ∧ (findInode s n = none → r q = 0) :=
  hc.exists_dirOpen (hD.lt n hn) (hD.iNo n hn)

/-- The search from the open directory `d` on. -/
theorem exists_searchLoop {v : Volume} (hD : DirTree v t) {fuel : ℕ} :
    ∀ {s : FileSys} {name : List UInt8} {sub : Option (List UInt8)} {record : PathSearchRecord}
      {parent iNo d : ℕ} {cs : List (List UInt8)},
    s.part.vol = v → Cache s (holdDir r record.parentDir) → 0 < r s.rootInode →
    (s.inodes (s.dirInode record.parentDir)).iNo = d → t.kind d = some .dir →
    t.kind parent = some .dir → (cs = if name = [] then [] else name :: restComponents sub) →
    (∀ c ∈ cs, IsName c) → (cs = [] → iNo = d) → cs.length < fuel →
    record.searchedPath.length + (joinPath cs).length < 512 →
    ∃ record' s', searchLoop fuel s name sub record parent iNo =
        .ok ((t.search parent d cs).found.map Prod.fst, record', s') ∧
      CacheStep s s' ∧ Cache s' (holdDir r record'.parentDir) ∧
      (s'.inodes (s'.dirInode record'.parentDir)).iNo = (t.search parent d cs).dir ∧
      record'.searchedPath = record.searchedPath ++ joinPath (t.search parent d cs).path ∧
      record'.fileType = ((t.search parent d cs).found.map fun e => Kind.type e.2).getD
        record.fileType ∧
      ∀ n, (t.search parent d cs).found = some (n, .file) → (record'.parentDir = .rootDir ↔
        record.parentDir = .rootDir ∧ (t.search parent d cs).path.length = 1) := by
  induction fuel with
  | zero => exact fun _ _ _ _ _ _ _ _ _ h => absurd h (Nat.not_lt_zero _)
  | succ fuel ih =>
    intro s name sub record parent iNo d cs hv hc hroot hd hk hpk hcs hname hnil hfuel hlen
    have hD' : DirTree s.part.vol t := hv ▸ hD
    have hret : ∀ n, t.kind n ≠ none → retNo n = some n := fun n hn => by
      have := hD.lt n hn
      exact if_neg (by omega)
    rw [searchLoop]
    by_cases hne : name = []
    · -- the whole path has been walked: `d` is the object, `parent` its directory
      rw [if_pos hne] at hcs
      subst hcs
      have hc1 := hc.dirClose hroot
      have hs1 := cacheStep_dirClose s record.parentDir
      obtain ⟨q, s2, hopen, hs2, hc2, hq, -⟩ := DirTree.exists_dirOpen
        (by rw [hs1.part]; exact hD') hc1 (ne_none_of_eq_some hpk)
      rw [if_pos hne, hopen, ok_bind]
      refine ⟨{ record with parentDir := .heap q, fileType := .directory }, s2, ?_,
        hs1.trans hs2, hc2, hq, (List.append_nil _).symm, rfl, fun n hf => by cases hf⟩
      rw [hnil rfl, hret d (ne_none_of_eq_some hk)]
      rfl
    · rw [if_neg hne] at hcs
      subst hcs
      rw [joinPath_cons, List.length_append, List.length_cons] at hlen
      set record1 : PathSearchRecord :=
        { record with searchedPath := record.searchedPath ++ slash :: name } with hrecord1
      have hholds := hD'.holds_cell hc hc.dirInode_mem (by rw [hd]; exact hk)
      rw [hd] at hholds
      obtain ⟨next, sub', hnext, hrest, -⟩ := exists_nextName sub
      rw [hrest] at hname hlen hfuel
      have hnextlen : next.length < 16 := by
        by_cases h : next = []
        · rw [h]
          decide
        · rw [if_neg h] at hname
          have := (hname next (by simp)).length_le
          omega
      rw [if_neg hne, assert, if_pos (by omega), ok_bind]
      simp only [hnext]
      rw [hrest, Tree.search]
      cases hent : t.entries d name with
      | none =>
        rw [hholds.search_none (hname name (List.mem_cons_self ..)) hent]
        exact ⟨record1, s, rfl, CacheStep.refl s, hc, hd, by simp [hrecord1, joinPath], rfl,
          fun n hf => by cases hf⟩
      | some e =>
        obtain ⟨n, k⟩ := e
        obtain ⟨e, hfound, hno, htype⟩ :=
          hholds.search_some (hname name (List.mem_cons_self ..)) hent
        have hn := (Tree.entries_eq_some.1 hent).2
        rw [hfound]
        simp only [access, if_pos hnextlen, ok_bind, htype, hno]
        cases k with
        | file =>
          rw [if_neg (by decide), if_pos (by decide), hret n (ne_none_of_eq_some hn)]
          exact ⟨{ record1 with fileType := .regular }, s, rfl, CacheStep.refl s, hc, hd,
            by simp [hrecord1, joinPath], rfl, fun _ _ => (and_iff_left rfl).symm⟩
        | dir =>
          rw [if_pos (by decide)]
          have hc1 := hc.dirClose hroot
          have hs1 := cacheStep_dirClose s record.parentDir
          obtain ⟨q, s2, hopen, hs2, hc2, hq, -⟩ := DirTree.exists_dirOpen
            (by rw [hs1.part]; exact hD') hc1 (ne_none_of_eq_some hn)
          have hs12 := hs1.trans hs2
          rw [hopen, ok_bind]
          simp only
          obtain ⟨record', s', hrun, hs', hc', hdir', hpath', htype', hheap⟩ :=
            @ih s2 next sub' { record1 with parentDir := .heap q } d n n _ (by rw [hs12.part, hv])
              hc2 (by rw [hs12.rootInode]; exact hroot) hq hn hk rfl
              (fun c hc => hname c (List.mem_cons_of_mem _ hc)) (fun _ => rfl)
              (by simpa using hfuel)
              (by simp only [hrecord1, List.length_append, List.length_cons]; omega)
          refine ⟨record', s', ?_, hs12.trans hs', hc', hdir', ?_, htype', fun m hf => ?_⟩
          · rw [hd]
            exact hrun
          · rw [hpath', hrecord1, joinPath_cons]
            simp
          · -- a directory that the search has opened is in the heap, and the path is longer
            refine iff_of_false (fun hr => ?_) fun hr => ?_
            · cases ((hheap m hf).1 hr).1
            · have hempty := List.length_eq_zero_iff.1 (Nat.succ.inj hr.2)
              exact absurd hf (Tree.search_ne_file hempty m)

/-- A path that `search_file` takes: absolute, short enough, without NULs, its components at most
15 bytes long. -/
structure PathOk (path : List UInt8) : Prop where
  head : path.head? = some slash
  length_lt : path.length < 512
  nul : 0 ∉ path
  components : ∀ c ∈ components path, c.length ≤ 15

theorem PathOk.isName {path : List UInt8} (h : PathOk path) :
    ∀ c ∈ Fs.components path, IsName c := fun c hc =>
  ⟨ne_nil_of_mem_components hc, h.components c hc,
    fun h0 => h.nul (mem_of_mem_components hc 0 h0).1⟩

/-- **`search_file`** finds what the search in the tree finds, and leaves the directory of the
last lookup open. -/
theorem exists_searchFile (hD : DirTree s.part.vol t) (hc : Cache s r) {path : List UInt8}
    (hp : PathOk path) (hr : isRootPath path = false) (uninit : Uninit)
    (hne : components path = [] → uninit.iNo = 0) :
    ∃ record s', searchFile s uninit path =
        .ok ((t.search 0 0 (components path)).found.map Prod.fst, record, s') ∧
      CacheStep s s' ∧ Cache s' (holdDir r record.parentDir) ∧
      (s'.inodes (s'.dirInode record.parentDir)).iNo = (t.search 0 0 (components path)).dir ∧
      record.searchedPath = joinPath (t.search 0 0 (components path)).path ∧
      record.fileType = ((t.search 0 0 (components path)).found.map fun e => Kind.type e.2).getD
        .unknown ∧
      ∀ n, (t.search 0 0 (components path)).found = some (n, .file) →
        (record.parentDir = .rootDir ↔ (t.search 0 0 (components path)).path.length = 1) := by
  have hroot : 0 < r s.rootInode := (hc.mem _).1 hc.root
  have hk0 : t.kind 0 = some .dir := hD.root ▸ hD.wf.root_kind
  obtain ⟨tail, rfl⟩ : ∃ tail, path = slash :: tail := List.head?_eq_some_iff.1 hp.head
  have htail : tail ≠ [] := by
    rintro rfl
    simp [isRootPath] at hr
  have hlen := List.length_pos_of_ne_nil htail
  obtain ⟨c, sub, hparse, -, hcomp, -, -, -⟩ := exists_pathParse (slash :: tail)
  have hname := hp.isName
  have hc16 : c.length < 16 := by
    by_cases h : c = []
    · rw [h]
      decide
    · rw [hcomp, if_neg h] at hname
      have := (hname c (by simp)).length_le
      omega
  have hjoin : (joinPath (components (slash :: tail))).length < 512 := by
    have h1 := length_joinPath_le (le_refl tail.length)
    have h2 := hp.length_lt
    rw [List.length_cons] at h2
    rw [components_slash]
    omega
  have hcnt := length_components_le (slash :: tail)
  unfold searchFile
  rw [hr, if_neg Bool.false_ne_true, assert, if_pos ⟨hp.head, by simpa using hlen, hp.length_lt⟩,
    ok_bind, hparse]
  simp only [access, if_pos hc16, ok_bind]
  obtain ⟨record, s', hrun, hs, hc', hdir, hpath, htype, hheap⟩ := @exists_searchLoop r t _ hD
    ((slash :: tail).length + 1) s c sub
    { searchedPath := [], parentDir := .rootDir, fileType := .unknown } 0 uninit.iNo 0
    (components (slash :: tail)) rfl hc hroot hc.root_iNo hk0 hk0 hcomp hname hne
    (Nat.lt_succ_of_le hcnt) (by simpa using hjoin)
  exact ⟨record, s', hrun, hs, hc', hdir, hpath, htype, fun n hf =>
    (hheap n hf).trans (and_iff_right rfl)⟩

end Search

end Fs

end Gardos
