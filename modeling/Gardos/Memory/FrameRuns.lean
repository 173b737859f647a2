import Gardos.Memory.Frames

/-!
# Runs of pages

The loop of `malloc_page` maps pages that follow one another. `Got` is what a round does. The loop
returns when the pools have enough frames, for the pages and for the page tables that are missing
(`FramesOk.exists_mapPages`), and only then (`FramesOk.room_of_mapPages`).
-/

namespace Gardos.Paging

open Outcome Bytes Machine Function

variable {s s' : Machine} {d t i j v f : ℕ} {e : Entry} {dir : ℕ → Option ℕ} {o : Owner}
  {pf : PoolFlags} {p : Pool} {a b n : ℕ}

/-! ## Runs of pages -/

/-- A frame found in a pool, and the page `v` mapped to it. -/
structure Got (dir : ℕ → Option ℕ) (s : Machine) (pf : PoolFlags) (v f : ℕ) (s' : Machine) :
    Prop where
  alloc : ∃ p, Paging.palloc false (s.pool pf) = .ok (some f, p) ∧
    Allocated dir s f (s.setPool p pf) ∧
    Mapped dir (s.setPool p pf) v f s'

theorem here_congr (h : s'.cur = s.cur) (v : ℕ) : here s' v = here s v := by
  unfold here
  rw [h]

theorem here_inj {v' : ℕ} (h : here s v = here s v') : v = v' := by
  unfold here at h
  split at h <;> split at h <;> cases h <;> rfl

theorem Backed.congr {g : ℕ} (hk : s'.kernelPool = s.kernelPool) (hu : s'.userPool = s.userPool) :
    Backed s' g ↔ Backed s g := by
  unfold Backed
  rw [hk, hu]

@[simp] theorem setPool_cur (s : Machine) (p : Pool) (pf : PoolFlags) :
    (s.setPool p pf).cur = s.cur := by
  cases pf <;> rfl

/-- What `page_table_add` does to the owners, in both of its branches. -/
theorem Mapped.own_of_ne (h : Mapped dir s v f s') (ho : o ≠ here s v)
    (ht : ∀ i, o ≠ .table s.cur i) : own dir s' o = own dir s o := by
  rcases h.own_eq with ⟨-, -, heq⟩ | ⟨-, -, k, -, -, heq⟩
  · rw [heq, update_of_ne ho]
  · rw [heq, update_of_ne ho, update_of_ne (ht _)]

theorem Got.framesOk (h : Got dir s pf v f s') : FramesOk dir s' := by
  obtain ⟨p, -, -, hm⟩ := h.alloc
  exact hm.framesOk

theorem Got.shape (h : Got dir s pf v f s') : SameShape s s' := by
  obtain ⟨p, -, ha, hm⟩ := h.alloc
  exact ha.shape.trans hm.shape

theorem Got.own_of_ne (h : Got dir s pf v f s') (ho : o ≠ here s v) (ht : ∀ i, o ≠ .table s.cur i) :
    own dir s' o = own dir s o := by
  obtain ⟨p, -, ha, hm⟩ := h.alloc
  have hcur := setPool_cur s p pf
  rw [hm.own_of_ne (by rwa [here_congr hcur]) (by rwa [hcur]), ha.own]

/-- The pages from `v` on, `n` of them, can be mapped. -/
def ManagedRun (dir : ℕ → Option ℕ) (s : Machine) (v n : ℕ) : Prop :=
  ∀ k < n, Managed dir s (v + k)

theorem SameShape.managed (h : SameShape s s') : Managed dir s' v ↔ Managed dir s v := by
  unfold Managed
  rw [h.cur]

theorem Managed.lt_pageCount (h : Managed dir s v) : v < pageCount := by
  rcases h with ⟨h, -⟩ | h
  · exact lt_trans h (by decide)
  · exact lt_trans h.2 (by decide)

/-- A page gets a frame. -/
theorem FramesOk.got (h : FramesOk dir s) (hm : Managed dir s v)
    (hpal : Paging.palloc false (s.pool pf) = .ok (some f, p))
    (hadd : Paging.pageTableAdd false (s.setPool p pf) v f = .ok s') : Got dir s pf v f s' := by
  obtain ⟨_, hf, ha⟩ := h.palloc hpal
  obtain rfl := Option.some.inj hf
  exact ⟨p, hpal, ha, (ha.framesOk h).pageTableAdd (ha.shape.managed.2 hm)
    (ha.own.symm ▸ ha.unheld) ha.backed hadd⟩

/-! ## Enough frames -/

/-- The number of frames that a pool has left. -/
def Pool.freeFrames (p : Pool) : ℕ :=
  ((Finset.range p.poolBitmap.bitLen).filter fun k => p.poolBitmap.bit k = false).card

theorem Pool.freeFrames_pos (h : 0 < p.freeFrames) :
    ∃ k < p.poolBitmap.bitLen, p.poolBitmap.bit k = false := by
  obtain ⟨k, hk⟩ := Finset.card_pos.1 h
  obtain ⟨hlt, hc⟩ := Finset.mem_filter.1 hk
  exact ⟨k, Finset.mem_range.1 hlt, hc⟩

theorem Pool.freeFrames_set {k : ℕ} (hk : p.poolBitmap.IsFirstClear k) :
    Pool.freeFrames { p with poolBitmap := p.poolBitmap.set k true } + 1 = p.freeFrames := by
  have hmem : k ∈ (Finset.range p.poolBitmap.bitLen).filter fun k => p.poolBitmap.bit k = false :=
    Finset.mem_filter.2 ⟨Finset.mem_range.2 hk.lt, hk.clear⟩
  have heq : ((Finset.range p.poolBitmap.bitLen).filter
      fun j => (p.poolBitmap.set k true).bit j = false) =
      ((Finset.range p.poolBitmap.bitLen).filter fun j => p.poolBitmap.bit j = false).erase k := by
    ext j
    by_cases hj : j = k <;> simp [hj]
  unfold Pool.freeFrames
  simp only [Bitmap.set_bitLen]
  rw [heq, Finset.card_erase_add_one hmem]

/-- There are frames for `a` pages from the pool `pf` and for `b` page tables. -/
def Room (s : Machine) (pf : PoolFlags) (a b : ℕ) : Prop :=
  match pf with
  | .user => a ≤ s.userPool.freeFrames ∧ b ≤ s.kernelPool.freeFrames
  | .kernel => a + b ≤ s.kernelPool.freeFrames

/-- The page tables of the running process that the pages `vs` need and do not have. -/
def missingTables (dir : ℕ → Option ℕ) (s : Machine) (vs : Finset ℕ) : Finset ℕ :=
  (vs.image (· / 1024)).filter fun i => i < 768 ∧ own dir s (.table s.cur i) = none

theorem mem_missingTables {vs : Finset ℕ} : i ∈ missingTables dir s vs ↔
    (∃ v ∈ vs, v / 1024 = i) ∧ i < 768 ∧ own dir s (.table s.cur i) = none := by
  simp [missingTables]

/-- The counts after one page has got its frame. -/
theorem Got.room (hg : Got dir s pf v f s') :
    Room s' pf a b ↔ Room s pf (a + 1) (b + (missingTables dir s {v}).card) := by
  obtain ⟨p, hpal, ha, hm⟩ := hg.alloc
  obtain ⟨k, hk, -, rfl⟩ := palloc_eq_ok hpal
  have hcount := Pool.freeFrames_set hk
  have hcur := setPool_cur s { s.pool pf with poolBitmap := (s.pool pf).poolBitmap.set k true } pf
  rcases hm.own_eq with ⟨hkp, htab, -⟩ | ⟨hv, htab, k', hk', hkp, -⟩
  · have hnone : missingTables dir s {v} = ∅ := by
      refine Finset.eq_empty_of_forall_notMem fun i hi => ?_
      obtain ⟨⟨w, hw, rfl⟩, hlt, hnone⟩ := mem_missingTables.1 hi
      obtain rfl := Finset.mem_singleton.1 hw
      refine htab (by unfold userPages; omega) ?_
      rw [ha.own, hcur, hnone]
    rw [hnone, Finset.card_empty]
    cases pf with
    | user =>
      have huse : s'.userPool.freeFrames + 1 = s.userPool.freeFrames := by
        rw [hm.userPool]
        exact hcount
      have hker : s'.kernelPool = s.kernelPool := hkp
      simp only [Room, hker]
      omega
    | kernel =>
      have hker : s'.kernelPool.freeFrames + 1 = s.kernelPool.freeFrames := by
        rw [hkp]
        exact hcount
      simp only [Room]
      omega
  · have hone : missingTables dir s {v} = {v / 1024} := by
      rw [ha.own, hcur] at htab
      have hlt := div_lt_of_lt_userPages hv
      ext i
      rw [mem_missingTables, Finset.mem_singleton]
      constructor
      · rintro ⟨⟨w, hw, rfl⟩, -⟩
        rw [Finset.mem_singleton.1 hw]
      · rintro rfl
        exact ⟨⟨v, Finset.mem_singleton_self v, rfl⟩, hlt, htab⟩
    rw [hone, Finset.card_singleton]
    have hcount' := Pool.freeFrames_set hk'
    cases pf with
    | user =>
      have huse : s'.userPool.freeFrames + 1 = s.userPool.freeFrames := by
        rw [hm.userPool]
        exact hcount
      have hker : s'.kernelPool.freeFrames + 1 = s.kernelPool.freeFrames := by
        rw [hkp]
        exact hcount'
      simp only [Room]
      omega
    | kernel =>
      have hker : s'.kernelPool.freeFrames + 1 + 1 = s.kernelPool.freeFrames := by
        rw [hkp, hcount']
        exact hcount
      simp only [Room]
      omega

/-- With enough frames, a page that is not mapped gets one. -/
theorem FramesOk.exists_got (h : FramesOk dir s) (hm : Managed dir s v)
    (hnone : own dir s (here s v) = none) (hroom : Room s pf 1 (missingTables dir s {v}).card) :
    ∃ f p s', Paging.palloc false (s.pool pf) = .ok (some f, p) ∧
      Paging.pageTableAdd false (s.setPool p pf) v f = .ok s' := by
  have hpos : 0 < (s.pool pf).freeFrames := by
    cases pf with
    | user => exact hroom.1
    | kernel =>
      simp only [Room] at hroom
      simp only [pool]
      omega
  obtain ⟨k, hk, hc⟩ := Pool.freeFrames_pos hpos
  obtain ⟨f, p, hpal⟩ := palloc_of_clear hk hc
  obtain ⟨_, hf, ha⟩ := h.palloc hpal
  obtain rfl := Option.some.inj hf
  have hcur := setPool_cur s p pf
  have hhere : here (s.setPool p pf) v = here s v := here_congr hcur v
  -- a missing page table means that the kernel pool has a frame for it
  have htable : ((s.setPool p pf).pde v).present = true ∨
      ∃ k < (s.setPool p pf).kernelPool.poolBitmap.bitLen,
        (s.setPool p pf).kernelPool.poolBitmap.bit k = false := by
    by_cases hp : ((s.setPool p pf).pde v).present = true
    · exact .inl hp
    · refine .inr (Pool.freeFrames_pos ?_)
      have hpde : (s.setPool p pf).pde v = s.pde v := by
        rw [pde, ha.table, ha.shape.cr3]
        rfl
      rw [hpde] at hp
      rcases hm with ⟨hv, hd⟩ | hv
      · obtain ⟨d, hd⟩ := Option.isSome_iff_exists.1 hd
        have hmem : v / 1024 ∈ missingTables dir s {v} := by
          refine mem_missingTables.2 ⟨⟨v, Finset.mem_singleton_self v, rfl⟩,
            div_lt_of_lt_userPages hv, ?_⟩
          rw [own_table (div_lt_of_lt_userPages hv) hd, Entry.target_eq_none]
          have hcr3 : s.cr3 = d := by rw [h.cr3, hd, Option.getD_some]
          exact hcr3 ▸ Bool.not_eq_true _ ▸ hp
        have hcard := Finset.card_pos.2 ⟨_, hmem⟩
        obtain ⟨k', hk', -, rfl⟩ := palloc_eq_ok hpal
        have hcount := Pool.freeFrames_set hk'
        cases pf with
        | user => exact lt_of_lt_of_le hcard hroom.2
        | kernel =>
          simp only [Room] at hroom
          simp only [pool] at hcount
          simp only [setPool, pool]
          omega
      · exact absurd (h.pde_kernel hv ▸ h.layout.present _ hv.div_le hv.div_lt) hp
  obtain ⟨s', hadd⟩ := (ha.framesOk h).exists_pageTableAdd (ha.shape.managed.2 hm)
    (by rw [hhere, ha.own, hnone]) f htable
  exact ⟨f, p, s', hpal, hadd⟩

/-- A page that gets its frame brings at most its own page table. -/
theorem Got.card_missingTables (hg : Got dir s pf v f s') (vs : Finset ℕ) :
    (missingTables dir s (insert v vs)).card =
      (missingTables dir s' vs).card + (missingTables dir s {v}).card := by
  obtain ⟨p, hpal, ha, hm⟩ := hg.alloc
  have hcur := hg.shape.cur
  have hcur' := setPool_cur s p pf
  -- the other page tables are as they were
  have hother : ∀ i, i ≠ v / 1024 →
      own dir s' (.table s.cur i) = own dir s (.table s.cur i) := fun i hi => by
    rcases hm.own_eq with ⟨-, -, heq⟩ | ⟨-, -, k, -, -, heq⟩
    · rw [heq, update_of_ne (Ne.symm here_ne_table), ha.own]
    · rw [heq, update_of_ne (Ne.symm here_ne_table), update_of_ne (by simp [hi]),
        ha.own]
  have hself : v < userPages → own dir s' (.table s.cur (v / 1024)) ≠ none := fun hv => by
    rw [← hcur']
    rcases hm.own_eq with ⟨-, htab, heq⟩ | ⟨-, -, k, -, -, heq⟩
    · rw [heq, update_of_ne (Ne.symm here_ne_table)]
      exact htab hv
    · rw [heq, update_of_ne (Ne.symm here_ne_table), update_self]
      simp
  have hunion : missingTables dir s (insert v vs) =
      missingTables dir s' vs ∪ missingTables dir s {v} := by
    ext i
    rw [Finset.mem_union, mem_missingTables, mem_missingTables, mem_missingTables, hcur]
    by_cases hi : i = v / 1024
    · subst hi
      constructor
      · rintro ⟨-, hlt, hnone⟩
        exact .inr ⟨⟨v, Finset.mem_singleton_self v, rfl⟩, hlt, hnone⟩
      · rintro (⟨-, hlt, hnone⟩ | ⟨-, hlt, hnone⟩)
        · exact absurd hnone (hself (by unfold userPages; omega))
        · exact ⟨⟨v, Finset.mem_insert_self v vs, rfl⟩, hlt, hnone⟩
    · rw [hother i hi]
      constructor
      · rintro ⟨⟨w, hw, rfl⟩, hrest⟩
        rcases Finset.mem_insert.1 hw with rfl | hw
        · exact absurd rfl hi
        · exact .inl ⟨⟨w, hw, rfl⟩, hrest⟩
      · rintro (⟨⟨w, hw, rfl⟩, hrest⟩ | ⟨⟨w, hw, rfl⟩, -⟩)
        · exact ⟨⟨w, Finset.mem_insert_of_mem hw, rfl⟩, hrest⟩
        · exact absurd (by rw [Finset.mem_singleton.1 hw]) hi
  have hdisj : Disjoint (missingTables dir s' vs) (missingTables dir s {v}) := by
    rw [Finset.disjoint_left]
    intro i hi hi'
    obtain ⟨⟨w, hw, rfl⟩, -⟩ := mem_missingTables.1 hi'
    obtain rfl := Finset.mem_singleton.1 hw
    obtain ⟨-, hlt, hnone⟩ := mem_missingTables.1 hi
    rw [hcur] at hnone
    exact hself (by unfold userPages; omega) hnone
  rw [hunion, Finset.card_union_of_disjoint hdisj]

theorem Room.mono {a' b' : ℕ} (h : Room s pf a b) (ha : a' ≤ a) (hb : b' ≤ b) :
    Room s pf a' b' := by
  cases pf with
  | user => exact ⟨ha.trans h.1, hb.trans h.2⟩
  | kernel =>
    simp only [Room] at h ⊢
    omega

theorem missingTables_mono {vs ws : Finset ℕ} (h : vs ⊆ ws) :
    missingTables dir s vs ⊆ missingTables dir s ws :=
  Finset.filter_subset_filter _ (Finset.image_subset_image h)

theorem ico_succ (v n : ℕ) :
    Finset.Ico v (v + (n + 1)) = insert v (Finset.Ico (v + 1) (v + 1 + n)) := by
  ext w
  simp only [Finset.mem_Ico, Finset.mem_insert]
  omega

/-- **The loop of `malloc_page`** goes through when the pools have enough frames. -/
theorem FramesOk.exists_mapPages (h : FramesOk dir s) (hm : ManagedRun dir s v n)
    (hnone : ∀ k < n, own dir s (here s (v + k)) = none)
    (hroom : Room s pf n (missingTables dir s (Finset.Ico v (v + n))).card) :
    ∃ s', Paging.mapPages false pf n v s = .ok (true, s') := by
  induction n generalizing s v with
  | zero => exact ⟨s, rfl⟩
  | succ n ih =>
    have hsub : ({v} : Finset ℕ) ⊆ Finset.Ico v (v + (n + 1)) := by simp
    have hm0 : Managed dir s v := hm 0 (by omega)
    have hroom0 : Room s pf 1 (missingTables dir s {v}).card :=
      hroom.mono (by omega) (Finset.card_le_card (missingTables_mono hsub))
    obtain ⟨f, p, s₁, hpal, hadd⟩ := h.exists_got hm0 (hnone 0 (by omega)) hroom0
    have hg := h.got hm0 hpal hadd
    have hhere : ∀ k, here s₁ (v + 1 + k) = here s (v + (1 + k)) := fun k => by
      rw [here_congr hg.shape.cur, Nat.add_assoc]
    have hroom1 : Room s₁ pf n (missingTables dir s₁ (Finset.Ico (v + 1) (v + 1 + n))).card := by
      rw [hg.room, ← hg.card_missingTables, ← ico_succ]
      exact hroom
    obtain ⟨s', hs'⟩ := ih (s := s₁) (v := v + 1) hg.framesOk
      (fun k hk => by
        rw [hg.shape.managed, Nat.add_assoc]
        exact hm (1 + k) (by omega))
      (fun k hk => by
        rw [hhere, hg.own_of_ne (fun heq => ?_) fun i => here_ne_table]
        · exact hnone (1 + k) (by omega)
        · have := here_inj heq
          omega)
      hroom1
    refine ⟨s', bind_eq_ok.2 ⟨_, hpal, bind_eq_ok.2 ⟨s₁, hadd, ?_⟩⟩⟩
    rcases n with _ | n
    · exact hs'
    · rw [Nat.mod_eq_of_lt (hm 1 (by omega)).lt_pageCount]
      exact hs'

/-- The loop of `malloc_page` goes through only then: `palloc` never returns without a frame. -/
theorem FramesOk.room_of_mapPages (h : FramesOk dir s) {done : Bool} (hm : ManagedRun dir s v n)
    (hmap : Paging.mapPages false pf n v s = .ok (done, s')) :
    Room s pf n (missingTables dir s (Finset.Ico v (v + n))).card := by
  induction n generalizing s v with
  | zero =>
    rw [Nat.add_zero, Finset.Ico_self, missingTables, Finset.image_empty, Finset.filter_empty,
      Finset.card_empty]
    cases pf with
    | user => exact ⟨Nat.zero_le _, Nat.zero_le _⟩
    | kernel => exact Nat.zero_le _
  | succ n ih =>
    obtain ⟨⟨r, p⟩, hpal, hmap⟩ := bind_eq_ok.1 hmap
    obtain ⟨f, rfl, -⟩ := h.palloc hpal
    obtain ⟨s₁, hadd, hmap⟩ := bind_eq_ok.1 hmap
    have hg := h.got (hm 0 (by omega)) hpal hadd
    have hm1 : ManagedRun dir s₁ (v + 1) n := fun k hk => by
      rw [hg.shape.managed, Nat.add_assoc]
      exact hm (1 + k) (by omega)
    have hmap1 : Paging.mapPages false pf n (v + 1) s₁ = .ok (done, s') := by
      rcases n with _ | n
      · exact hmap
      · rwa [Nat.mod_eq_of_lt (hm 1 (by omega)).lt_pageCount] at hmap
    have hroom := ih hg.framesOk hm1 hmap1
    rwa [hg.room, ← hg.card_missingTables, ← ico_succ] at hroom

/-! ## Bitmaps of virtual pages -/

theorem setVaddr_shape (s : Machine) (va : VirtualAddr) (pf : PoolFlags) :
    SameShape s (s.setVaddr va pf) := by
  cases pf with
  | kernel => exact ⟨rfl, rfl, rfl, rfl, rfl, rfl, fun _ => rfl⟩
  | user =>
    refine ⟨rfl, rfl, rfl, rfl, rfl, rfl, fun t => ?_⟩
    by_cases ht : t = s.cur
    · rw [ht, setVaddr, setUserVaddr]
      simp only [Function.update_self]
      rfl
    · rw [setVaddr, setUserVaddr]
      simp only [Function.update_of_ne ht]

theorem setVaddr_table (s : Machine) (va : VirtualAddr) (pf : PoolFlags) :
    (s.setVaddr va pf).table = s.table := by
  cases pf <;> rfl

theorem setVaddr_pools (s : Machine) (va : VirtualAddr) (pf : PoolFlags) :
    (s.setVaddr va pf).kernelPool = s.kernelPool ∧ (s.setVaddr va pf).userPool = s.userPool := by
  cases pf <;> exact ⟨rfl, rfl⟩

/-- The owners of frames do not depend on the bitmaps of virtual pages. -/
theorem FramesOk.setVaddr (h : FramesOk dir s) (va : VirtualAddr) (pf : PoolFlags) :
    FramesOk dir (s.setVaddr va pf) := by
  have hown : own dir (s.setVaddr va pf) = own dir s := own_congr (setVaddr_table s va pf)
  obtain ⟨hk, hu⟩ := setVaddr_pools s va pf
  refine h.of_own (setVaddr_shape s va pf) (fun d _ i _ _ => by rw [setVaddr_table])
    (hown ▸ h.exclusive) (fun o f ho => ?_) fun t d p _ _ hp => by rw [hown, hp]
  rw [hown] at ho
  exact (Backed.congr hk hu).2 (h.backed o f ho)

end Gardos.Paging
