import Gardos.Fs.Safety

/-!
# Names that have been created

`create_dir_entry` admits names of up to 16 bytes, and the directory entry has room for 16.
`search_file` collects each component in a buffer of 16 bytes, where the terminating NUL needs a
place as well. `createdFound_iff` says which names can be found once they have been created: those
of at most 15 bytes. A component of 16 bytes leaves the buffer without a NUL, and the search reads
past it (`searchFile_long`).
-/

namespace Gardos

open Fs Function

namespace Tree

variable {t : Tree ℕ (List UInt8)} {d n : ℕ} {k : Kind} {c : List UInt8}

/-- The first step of a walk to a directory leads to a directory. -/
theorem Wf.entries_of_walk (h : t.Wf) {a : ℕ} {x : List UInt8} {cs : List (List UInt8)}
    (hd : t.kind d = some .dir) (hwalk : t.walk a ((x :: cs).map stepOf) = some d) :
    ∃ m, t.entries a x = some (m, .dir) ∧ t.walk m (cs.map stepOf) = some d := by
  rw [List.map_cons, walk] at hwalk
  obtain ⟨m, hlook, hwalk⟩ := Option.bind_eq_some_iff.1 hwalk
  obtain ⟨km, hkm⟩ := Option.ne_none_iff_exists'.1 (h.kind_of_look hlook)
  refine ⟨m, entries_eq_some.2 ⟨hlook, ?_⟩, hwalk⟩
  cases km with
  | dir => exact hkm
  | file =>
    cases cs with
    | nil =>
      obtain rfl : m = d := Option.some.inj hwalk
      exact hd
    | cons y cs =>
      rw [walk_of_file hkm (by simp)] at hwalk
      cases hwalk

/-- A path that leads to a directory, and one more component. -/
theorem Wf.search_concat (h : t.Wf) (hd : t.kind d = some .dir) {cs : List (List UInt8)} :
    ∀ {parent a : ℕ}, t.walk a (cs.map stepOf) = some d →
      (t.search parent a (cs ++ [c])).found = t.entries d c := by
  induction cs with
  | nil =>
    intro parent a hwalk
    obtain rfl : a = d := Option.some.inj hwalk
    rw [List.nil_append, search]
    rcases t.entries a c with _ | ⟨n, k⟩
    · rfl
    · cases k <;> rfl
  | cons x cs ih =>
    intro parent a hwalk
    obtain ⟨m, hent, hwalk⟩ := h.entries_of_walk hd hwalk
    rw [List.cons_append, search, hent]
    exact ih hwalk

/-- A walk to a directory takes the same way after an insertion. -/
theorem Wf.walk_insert (h : t.Wf) (hd : t.kind d = some .dir) (hn : t.kind n = none)
    (hc : t.entries d c = none) (hdot : c ≠ dot) (hdotDot : c ≠ dotDot)
    {cs : List (List UInt8)} : ∀ {a : ℕ}, t.kind a = some .dir →
      t.walk a (cs.map stepOf) = some d → (t.insert d c n k).walk a (cs.map stepOf) = some d := by
  induction cs with
  | nil => exact fun _ hwalk => hwalk
  | cons x cs ih =>
    intro a ha hwalk
    obtain ⟨m, hent, hwalk⟩ := h.entries_of_walk hd hwalk
    have hent' : (t.insert d c n k).entries a x = some (m, .dir) := by
      rw [h.entries_insert hd hn hdot hdotDot ha]
      split
      · rename_i had
        subst had
        have hx : x ≠ c := fun hx => by
          rw [hx, hc] at hent
          cases hent
        rw [update_of_ne hx, hent]
      · exact hent
    rw [walk_cons_of_entries hent']
    exact ih (entries_eq_some.1 hent).2 hwalk

end Tree

namespace Fs

open Bytes Outcome

/-! ## Components that do not fit -/

section Long

variable {r : ℕ → ℕ} {t : Tree ℕ (List UInt8)} {c : List UInt8} {e : ℕ}

/-- The search runs over its buffer when it comes to a component of 16 bytes. -/
theorem searchLoop_long {v : Volume} (hD : DirTree v t) (hlong : 16 ≤ c.length)
    (he : t.kind e = some .dir) {fuel : ℕ} :
    ∀ {s : FileSys} {name : List UInt8} {sub : Option (List UInt8)} {record : PathSearchRecord}
      {parent iNo d : ℕ} {init : List (List UInt8)},
    s.part.vol = v → Cache s (holdDir r record.parentDir) → 0 < r s.rootInode →
    (s.inodes (s.dirInode record.parentDir)).iNo = d → t.kind d = some .dir →
    name :: restComponents sub = init ++ [c] → init ≠ [] → (∀ x ∈ init, IsName x) →
    t.walk d (init.map stepOf) = some e → init.length < fuel →
    record.searchedPath.length + (joinPath init).length < 512 →
    searchLoop fuel s name sub record parent iNo = .error .fault := by
  induction fuel with
  | zero => exact fun _ _ _ _ _ _ _ _ _ h => absurd h (Nat.not_lt_zero _)
  | succ fuel ih =>
    intro s name sub record parent iNo d init hv hc hroot hd hk hcs hinit hname hwalk hfuel hlen
    obtain ⟨x, init, rfl⟩ := List.exists_cons_of_ne_nil hinit
    obtain ⟨rfl, hrest⟩ := List.cons.inj hcs
    have hD' : DirTree s.part.vol t := hv ▸ hD
    have hx : IsName name := hname name (List.mem_cons_self ..)
    rw [joinPath_cons, List.length_append, List.length_cons] at hlen
    obtain ⟨m, hent, hwalk⟩ := hD.wf.entries_of_walk he hwalk
    have hholds := hD'.holds_cell hc hc.dirInode_mem (by rw [hd]; exact hk)
    rw [hd] at hholds
    obtain ⟨entry, hfound, hno, htype⟩ := hholds.search_some hx hent
    obtain ⟨next, sub', hnext, hsub, -⟩ := exists_nextName sub
    have hne : next ≠ [] := by
      rintro rfl
      rw [hrest, if_pos rfl] at hsub
      simp at hsub
    rw [if_neg hne, hrest] at hsub
    rw [searchLoop, if_neg hx.ne_nil, assert, if_pos (by omega), ok_bind]
    simp only [hnext, hfound]
    cases init with
    | nil =>
      -- the component that does not fit comes next
      obtain ⟨rfl, -⟩ := List.cons.inj hsub
      rw [access, if_neg (by omega)]
      rfl
    | cons y init =>
      obtain ⟨rfl, hsub⟩ := List.cons.inj hsub
      have hy := (hname y (by simp)).length_le
      have hm := (Tree.entries_eq_some.1 hent).2
      have hc1 := hc.dirClose hroot
      have hs1 := cacheStep_dirClose s record.parentDir
      obtain ⟨q, s2, hopen, hs2, hc2, hq, -⟩ := DirTree.exists_dirOpen
        (by rw [hs1.part]; exact hD') hc1 (ne_none_of_eq_some hm)
      have hs12 := hs1.trans hs2
      rw [access, if_pos (by omega), ok_bind, htype, if_pos (by decide), hno, hopen, ok_bind]
      exact ih (by rw [hs12.part, hv]) hc2 (by rw [hs12.rootInode]; exact hroot) hq hm
        (by rw [← hsub]; rfl) (by simp) (fun z hz => hname z (List.mem_cons_of_mem _ hz)) hwalk
        (by simpa using hfuel) (by simp only [List.length_append, List.length_cons]; omega)

end Long

/-! ## Creating a name and finding it -/

/-- The name `c`, of at most 16 bytes, is not in the directory `d`, which the path `base` names. -/
structure FreshName (t : Tree ℕ (List UInt8)) (base : List UInt8) (d : ℕ) (c : List UInt8) :
    Prop where
  base_eq : base = [] ∨ base.head? = some slash
  base_names : ∀ x ∈ components base, x.length ≤ 15
  walk : t.walk 0 ((components base).map stepOf) = some d
  dir : t.kind d = some .dir
  child : t.child d c = none
  ne_dot : c ≠ dot
  ne_dotDot : c ≠ dotDot
  ne_nil : c ≠ []
  length_le : c.length ≤ 16
  no_slash : slash ∉ c
  nul : 0 ∉ base ++ slash :: c
  length_lt : (base ++ slash :: c).length < 512

section FreshName

variable {t : Tree ℕ (List UInt8)} {base c : List UInt8} {d : ℕ}

theorem FreshName.components (h : FreshName t base d c) :
    components (base ++ slash :: c) = Fs.components base ++ [c] := by
  rw [components_append_slash, components_single h.no_slash h.ne_nil]

theorem FreshName.head (h : FreshName t base d c) :
    (base ++ slash :: c).head? = some slash := by
  rcases h.base_eq with rfl | hb
  · rfl
  · rw [List.head?_append, hb]
    rfl

theorem FreshName.not_root (h : FreshName t base d c) :
    isRootPath (base ++ slash :: c) = false := by
  have hlast : (Fs.components (base ++ slash :: c)).getLast? = some c := by
    rw [h.components, List.getLast?_concat]
  rw [Bool.eq_false_iff]
  intro hr
  simp only [isRootPath, Bool.or_eq_true, decide_eq_true_eq] at hr
  rcases hr with (hr | hr) | hr <;> rw [hr] at hlast
  · cases hlast
  · exact h.ne_dot (Option.some.inj hlast).symm
  · exact h.ne_dotDot (Option.some.inj hlast).symm

theorem FreshName.pathArg (h : FreshName t base d c) (hc : c.length ≤ 15) :
    PathArg (base ++ slash :: c) := by
  refine Or.inr ⟨⟨h.head, h.length_lt, h.nul, fun x hx => ?_⟩, by rw [h.components]; simp⟩
  rw [h.components, List.mem_append, List.mem_singleton] at hx
  rcases hx with hx | rfl
  · exact h.base_names x hx
  · exact hc

/-- The calls take the path apart in this way. -/
theorem FreshName.eq_of_newName (h : FreshName t base d c) {d' : ℕ} {c' : List UInt8}
    (hname : NewName t (base ++ slash :: c) d' c') : d' = d ∧ c' = c := by
  obtain ⟨init, hcs, hwalk⟩ := hname.last
  rw [h.components] at hcs
  obtain ⟨hinit, hc⟩ := List.append_inj' hcs rfl
  rw [← hinit, h.walk] at hwalk
  exact ⟨(Option.some.inj hwalk).symm, (List.singleton_inj.1 hc).symm⟩

/-- A path that ends in a component of 16 bytes is not searched to its end. -/
theorem searchFile_long {s : FileSys} {r : ℕ → ℕ} (h : FsOk s t r) (hf : FreshName t base d c)
    (hc : 16 ≤ c.length) (uninit : Uninit) :
    searchFile s uninit (base ++ slash :: c) = .error .fault := by
  have hlen : 1 < (base ++ slash :: c).length := by
    simp only [List.length_append, List.length_cons]
    omega
  obtain ⟨name, sub, hparse, -, hcs, -⟩ := exists_pathParse (base ++ slash :: c)
  have hne : name ≠ [] := by
    rintro rfl
    rw [hf.components, if_pos rfl] at hcs
    simp at hcs
  rw [if_neg hne, hf.components] at hcs
  unfold searchFile
  rw [hf.not_root, if_neg Bool.false_ne_true, assert, if_pos ⟨hf.head, hlen, hf.length_lt⟩, ok_bind]
  simp only [hparse]
  by_cases hbase : Fs.components base = []
  · rw [hbase] at hcs
    obtain ⟨rfl, -⟩ := List.cons.inj hcs
    rw [access, if_neg (by omega)]
    rfl
  · have hnames : ∀ x ∈ Fs.components base, IsName x := fun x hx =>
      ⟨ne_nil_of_mem_components hx, hf.base_names x hx, fun h0 =>
        hf.nul (List.mem_append_left _ (mem_of_mem_components hx 0 h0).1)⟩
    have hname : name.length < 16 := by
      obtain ⟨y, ys, hys⟩ := List.exists_cons_of_ne_nil hbase
      rw [hys] at hcs
      obtain ⟨rfl, -⟩ := List.cons.inj hcs
      have := hf.base_names y (by rw [hys]; simp)
      omega
    have hjoin := length_joinPath_le (le_refl base.length)
    have hcount := length_components_le base
    have hfit := hf.length_lt
    rw [List.length_append, List.length_cons] at hfit
    rw [access, if_pos hname, ok_bind]
    exact searchLoop_long h.rep.dirTree hc hf.dir rfl h.cache h.root_held h.cache.root_iNo
      h.rep.root_kind hcs.symm hbase hnames hf.walk
      (by rw [List.length_append]; omega) (by simp only [List.length_nil]; omega)

/-- The object that a call has made, with a number that was free, is found under the path. -/
def FoundNew (s s' : FileSys) (uninit : Uninit) (path : List UInt8) : Prop :=
  ∃ n record s'', s.part.inodeBitmap.bit n = false ∧ s'.part.inodeBitmap.bit n = true ∧
    searchFile s' uninit path = .ok (some n, record, s'')

/-- A new name can be looked up, and is found once `sys_mkdir` or `sys_open` has created it. -/
structure CreatedFound (s : FileSys) (uninit : Uninit) (path : List UInt8) : Prop where
  stored : ∃ record s', searchFile s uninit path = .ok (none, record, s')
  mkdir : ∀ s', sysMkdir s uninit path = .ok (true, s') → FoundNew s s' uninit path
  create : ∀ pid flags fd s', 4 ≤ flags → sysOpen s uninit pid path flags = .ok (some fd, s') →
    FoundNew s s' uninit path

theorem FreshName.entries (h : FreshName t base d c) (hwf : t.Wf) : t.entries d c = none := by
  rw [hwf.entries_eq_none, Tree.stepOf_of_ne h.ne_dot h.ne_dotDot, Tree.look_down h.dir, h.child]

/-- The path resolves to what the directory maps the name to. -/
theorem FreshName.resolve (h : FreshName t base d c) {u : Tree ℕ (List UInt8)} (hwf : u.Wf)
    (hd : u.kind d = some .dir) (hwalk : u.walk 0 ((Fs.components base).map stepOf) = some d) :
    (u.resolve (base ++ slash :: c)).found = u.entries d c := by
  unfold Tree.resolve
  rw [h.not_root, if_neg Bool.false_ne_true, h.components]
  exact hwf.search_concat hd hwalk

/-- The object that the tree has gained is found. -/
theorem FsOk.foundNew {s s' : FileSys} {r r' : ℕ → ℕ} {n : ℕ} {k : Kind} (h : FsOk s t r)
    (hf : FreshName t base d c) (hc : c.length ≤ 15) (hn : t.kind n = none) (hlt : n < 256)
    (h' : FsOk s' (t.insert d c n k) r') (uninit : Uninit) :
    FoundNew s s' uninit (base ++ slash :: c) := by
  obtain ⟨record, s'', hsearch, -⟩ := h'.search (hf.pathArg hc) uninit
  have hfound : ((t.insert d c n k).resolve (base ++ slash :: c)).found = some (n, k) := by
    have hdn : d ≠ n := fun hdn => by
      have hd := hf.dir
      rw [hdn, hn] at hd
      cases hd
    have hwalk := h.rep.wf.walk_insert (k := k) hf.dir hn (hf.entries h.rep.wf) hf.ne_dot
      hf.ne_dotDot h.rep.root_kind hf.walk
    rw [hf.resolve h'.rep.wf (by rw [Tree.kind_insert_of_ne hdn, hf.dir]) hwalk,
      h.rep.wf.entries_insert hf.dir hn hf.ne_dot hf.ne_dotDot hf.dir, if_pos rfl,
      update_self]
  rw [hfound] at hsearch
  refine ⟨n, record, s'', ?_, ?_, hsearch⟩
  · have hfree : s.part.vol.allocated n ≠ true := fun ha => (h.rep.contents.alloc n).1 ha hn
    rw [Ne, Partition.allocated_iff] at hfree
    exact Bool.eq_false_iff.2 fun hb => hfree ⟨by omega, hb⟩
  · refine Partition.bit_of_allocated ((h'.rep.contents.alloc n).2 ?_)
    exact ne_none_of_eq_some (update_self ..)

end FreshName

/-- **Names that can be created and found.** In a directory with room for another object, a name of
1 to 16 bytes that the directory does not contain can be looked up, and is found with its number
once it has been created, iff it has at most 15 bytes. -/
theorem createdFound_iff (x : FsRun) (t : Tree ℕ (List UInt8)) (leak : List ℕ) (h : RunOk x t leak)
    (base : List UInt8) (d : ℕ) (c : List UInt8) (hf : FreshName t base d c)
    (hroom : RoomToMake x.fs (base ++ slash :: c)) (uninit : Uninit) :
    CreatedFound x.fs uninit (base ++ slash :: c) ↔ c.length ≤ 15 := by
  constructor
  · intro hfound
    by_contra hc
    obtain ⟨record, s', hsearch⟩ := hfound.stored
    rw [searchFile_long h.fs hf (by omega) uninit] at hsearch
    cases hsearch
  · intro hc
    have hp := hf.pathArg hc
    have hd := h.resolve_dir_lt hp
    have hroomFor : RoomFor x.fs t (base ++ slash :: c) :=
      ⟨hroom.number t h.fs.rep, hroom.entry t h.fs.rep⟩
    refine ⟨?_, fun s' hrun => ?_, fun pid flags fd s' hflags hrun => ?_⟩
    · obtain ⟨record, s', hsearch, -⟩ := h.fs.search hp uninit
      rw [hf.resolve h.fs.rep.wf hf.dir hf.walk, hf.entries h.fs.rep.wf] at hsearch
      exact ⟨record, s', hsearch⟩
    · cases h.fs.mkdir hp hd hroomFor hrun with
      | made _ hname hn hlt h' =>
        obtain ⟨rfl, rfl⟩ := hf.eq_of_newName hname
        exact h.fs.foundNew hf hc hn hlt h' uninit
    · obtain ⟨t', r', hopens⟩ := h.fs.open hp hd (fun _ => hroomFor) hrun
      cases hopens with
      | opened hlt => omega
      | created _ _ _ hname hn hlt _ h' =>
        obtain ⟨rfl, rfl⟩ := hf.eq_of_newName hname
        exact h.fs.foundNew hf hc hn hlt h' uninit

/-- A name in the root directory of an empty file system. -/
theorem freshName_single {c : List UInt8} (hne : c ≠ []) (hle : c.length ≤ 16)
    (hslash : slash ∉ c) (hnul : 0 ∉ c) (hdot : c ≠ dot) (hdotDot : c ≠ dotDot) :
    FreshName (Tree.single 0) [] 0 c where
  base_eq := Or.inl rfl
  base_names := by
    intro x hx
    cases hx
  walk := rfl
  dir := rfl
  child := rfl
  ne_dot := hdot
  ne_dotDot := hdotDot
  ne_nil := hne
  length_le := hle
  no_slash := hslash
  nul := by simp [hnul, slash]
  length_lt := by
    rw [List.nil_append, List.length_cons]
    omega

/-- `"/a"` in an empty file system. -/
theorem createdFound_pathA : FreshName (Tree.single 0) [] 0 [97] ∧
    CreatedFound smallRun.fs noUninit pathA := by
  have hf := freshName_single (c := [97]) (by decide) (by decide) (by decide) (by decide)
    (by decide) (by decide)
  exact ⟨hf, (createdFound_iff smallRun _ _ smallRun_runOk [] 0 [97] hf roomToMake_smallRun
    noUninit).2 (by decide)⟩

/-- A name of 16 bytes in an empty file system. -/
theorem not_createdFound_sixteen :
    FreshName (Tree.single 0) [] 0 (List.replicate 16 97) ∧
    ¬ CreatedFound smallRun.fs noUninit (slash :: List.replicate 16 97) := by
  have hf := freshName_single (c := List.replicate 16 97) (by decide) (by decide) (by decide)
    (by decide) (by decide) (by decide)
  refine ⟨hf, fun h => ?_⟩
  obtain ⟨record, s', hsearch⟩ := h.stored
  have hfault := searchFile_long smallRun_runOk.fs hf (by decide) noUninit
  rw [List.nil_append] at hfault
  rw [hfault] at hsearch
  cases hsearch

end Fs

end Gardos
