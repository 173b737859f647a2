import Gardos.Device.Partitions

/-!
# What `partition_scan` makes of any disk (`device/ide.c`)

The tables of a disk refer to each other by sector numbers that nobody has checked. `FirstFound` is
what a scan should find: the first logical partitions in the order of the tables, up to a limit.
`Visits` says on which disks `partition_scan` comes to an end: all tables that it visits are on the
disk, there is no endless path, and no logical partition comes after the eighth, except in the rest
of the table of the eighth, since the limit ends the loop over one table only.

`scanRecords_iff`: the scan records what it should exactly for these disks, if the master boot
record also has at most three primary partitions; the assertion after the fourth fails.
-/

namespace Gardos.Device

open Bytes Outcome Fs Function

/-! ## What there is to find -/

/-- The first `k` logical partitions of the entries `ps` of the table in sector `lba` and the tables
that they link to, or all if there are not so many. -/
inductive FirstFound (hd : Disk) (base : ℕ) :
    (lba : ℕ) → List PartitionTableEntry → (k : ℕ) → List Extent → Prop
  | enough {lba : ℕ} {ps : List PartitionTableEntry} : FirstFound hd base lba ps 0 []
  | nil {lba k : ℕ} : FirstFound hd base lba [] k []
  | empty {lba k : ℕ} {p : PartitionTableEntry} {ps : List PartitionTableEntry} {es : List Extent}
      (hp : p.fsType = 0) (h : FirstFound hd base lba ps k es) :
      FirstFound hd base lba (p :: ps) k es
  | plain {lba k : ℕ} {p : PartitionTableEntry} {ps : List PartitionTableEntry} {es : List Extent}
      (hp : p.Plain) (h : FirstFound hd base lba ps k es) :
      FirstFound hd base lba (p :: ps) (k + 1) (extentAt lba p :: es)
  | link {lba k : ℕ} {p : PartitionTableEntry} {ps : List PartitionTableEntry}
      {es es' : List Extent} (hp : p.Extended) (hle : linkLba base p ≤ maxLba)
      (h : FirstFound hd base (linkLba base p) (partitionTable (hd (linkLba base p))) (k + 1) es)
      (h' : FirstFound hd base lba ps (k + 1 - es.length) es') :
      FirstFound hd base lba (p :: ps) (k + 1) (es ++ es')

/-- The primary partitions of entries of the master boot record. -/
def primsOf (ps : List PartitionTableEntry) : List Extent :=
  (ps.filter (·.Plain)).map (extentAt 0)

/-- The primary partitions. -/
def primaries (hd : Disk) : List Extent := primsOf (partitionTable (hd 0))

/-- The extended entries of the master boot record. -/
def extendedEntries (hd : Disk) : List PartitionTableEntry :=
  (partitionTable (hd 0)).filter (·.Extended)

/-- The first eight logical partitions of a disk. The first extended entry is absolute, and all
others count from its start. -/
def FirstLogicals (hd : Disk) (es : List Extent) : Prop :=
  extendedEntries hd = [] ∧ es = [] ∨
    ∃ p links es₁ es₂, extendedEntries hd = p :: links ∧ p.startLba ≤ maxLba ∧
      FirstFound hd p.startLba p.startLba (partitionTable (hd p.startLba)) 8 es₁ ∧
      FirstFound hd p.startLba 0 links (8 - es₁.length) es₂ ∧ es = es₁ ++ es₂

namespace ScanState

/-- The primary partitions found so far. -/
def prims (st : ScanState) : List Extent := (List.range st.pNo).map st.parts.primParts

/-- The logical partitions found so far. -/
def logics (st : ScanState) : List Extent := (List.range st.lNo).map st.parts.logicParts

/-- The variables before the first scan. -/
def initial : ScanState := ⟨0, 0, 0, .zero⟩

end ScanState

/-- `partition_scan(hd, 0)` ends and has recorded the primary partitions and the first eight logical
ones. -/
def ScanRecords (hd : Disk) : Prop :=
  ∃ fuel st, partitionScan hd fuel 0 .initial = .ok st ∧ st.prims = primaries hd ∧
    FirstLogicals hd st.logics

/-! ## Which disks can be scanned -/

/-- The entries `ps` of the table in sector `lba`, and the tables that they link to, can be visited
when `n` logical partitions are known. They add `es`; after the eighth only the rest of its table is
left out. -/
inductive Visits (hd : Disk) (base : ℕ) :
    (lba : ℕ) → List PartitionTableEntry → (n : ℕ) → List Extent → Prop
  | nil {lba n : ℕ} : Visits hd base lba [] n []
  | empty {lba n : ℕ} {p : PartitionTableEntry} {ps : List PartitionTableEntry} {es : List Extent}
      (hp : p.fsType = 0) (h : Visits hd base lba ps n es) : Visits hd base lba (p :: ps) n es
  | plain {lba n : ℕ} {p : PartitionTableEntry} {ps : List PartitionTableEntry} {es : List Extent}
      (hlba : lba ≠ 0) (hp : p.Plain) (hn : n < 7) (h : Visits hd base lba ps (n + 1) es) :
      Visits hd base lba (p :: ps) n (extentAt lba p :: es)
  | eighth {lba : ℕ} {p : PartitionTableEntry} {ps : List PartitionTableEntry}
      (hlba : lba ≠ 0) (hp : p.Plain) : Visits hd base lba (p :: ps) 7 [extentAt lba p]
  | link {lba n : ℕ} {p : PartitionTableEntry} {ps : List PartitionTableEntry}
      {es es' : List Extent} (hp : p.Extended) (hle : linkLba base p ≤ maxLba)
      (h : Visits hd base (linkLba base p) (partitionTable (hd (linkLba base p))) n es)
      (h' : Visits hd base lba ps (n + es.length) es') :
      Visits hd base lba (p :: ps) n (es ++ es')

/-- At most three primary partitions, and tables of the extended partition that can be visited. -/
structure Scannable (hd : Disk) : Prop where
  prims : (partitionTable (hd 0)).countP (·.Plain) ≤ 3
  visits : ∀ p links, extendedEntries hd = p :: links → p.startLba ≠ 0 ∧ p.startLba ≤ maxLba ∧
    ∃ es₁ es₂, Visits hd p.startLba p.startLba (partitionTable (hd p.startLba)) 0 es₁ ∧
      Visits hd p.startLba 0 links es₁.length es₂

section Visits

variable {hd : Disk} {base lba n : ℕ} {ps : List PartitionTableEntry} {es : List Extent}

theorem Visits.length_le (h : Visits hd base lba ps n es) : n ≤ 8 → n + es.length ≤ 8 := by
  induction h with
  | nil => exact id
  | empty _ _ ih => exact ih
  | plain _ _ hn _ ih =>
    intro _
    have hle := ih (by omega)
    rw [List.length_cons]
    omega
  | eighth => exact fun _ => le_rfl
  | link _ _ _ _ ih ih' =>
    intro hn
    have hle := ih' (ih hn)
    rw [List.length_append]
    omega

/-- What is visited is what there is to find. -/
theorem Visits.firstFound (h : Visits hd base lba ps n es) :
    n ≤ 8 → FirstFound hd base lba ps (8 - n) es := by
  induction h with
  | nil => exact fun _ => .nil
  | empty hp _ ih => exact fun hn => .empty hp (ih hn)
  | @plain _ n _ _ _ _ hp hn _ ih =>
    intro _
    rw [show 8 - n = 8 - (n + 1) + 1 by omega]
    exact .plain hp (ih (by omega))
  | eighth _ hp => exact fun _ => .plain hp .enough
  | @link _ n _ _ es es' hp hle h h' ih ih' =>
    intro hn
    have hlen := h.length_le hn
    have hlen' := h'.length_le hlen
    rcases Nat.eq_or_lt_of_le hn with rfl | hlt
    · -- nothing can be added to eight
      obtain rfl : es = [] := List.eq_nil_of_length_eq_zero (by omega)
      obtain rfl : es' = [] := List.eq_nil_of_length_eq_zero (by omega)
      exact .enough
    · obtain ⟨k, hk⟩ : ∃ k, 8 - n = k + 1 := ⟨7 - n, by omega⟩
      have hfound := ih hn
      have hrest := ih' hlen
      rw [hk] at hfound ⊢
      rw [show 8 - (n + es.length) = k + 1 - es.length by omega] at hrest
      exact .link hp hle hfound hrest

end Visits

/-! ## Scanning what can be visited -/

namespace ScanState

@[simp] theorem length_prims (st : ScanState) : st.prims.length = st.pNo := by
  rw [prims, List.length_map, List.length_range]

@[simp] theorem length_logics (st : ScanState) : st.logics.length = st.lNo := by
  rw [logics, List.length_map, List.length_range]

theorem range_map_update (f : ℕ → Extent) (n : ℕ) (e : Extent) :
    (List.range (n + 1)).map (update f n e) = (List.range n).map f ++ [e] := by
  rw [List.range_succ, List.map_append, List.map_singleton, update_self]
  refine congrArg (· ++ [e]) (List.map_congr_left fun i hi => ?_)
  exact update_of_ne (List.mem_range.1 hi).ne _ _

theorem prims_addPrim (st : ScanState) (e : Extent) : (st.addPrim e).prims = st.prims ++ [e] :=
  range_map_update ..

theorem logics_addLogic (st : ScanState) (e : Extent) :
    (st.addLogic e).logics = st.logics ++ [e] := range_map_update ..

end ScanState

/-- Primary partitions `qs` and logical partitions `es` have been added. -/
structure Added (st st' : ScanState) (qs es : List Extent) : Prop where
  extLbaBase : st'.extLbaBase = st.extLbaBase
  prims : st'.prims = st.prims ++ qs
  logics : st'.logics = st.logics ++ es

section Added

variable {st st' st'' : ScanState} {qs qs' es es' : List Extent}

theorem Added.refl (st : ScanState) : Added st st [] [] :=
  ⟨rfl, (List.append_nil _).symm, (List.append_nil _).symm⟩

theorem Added.trans (h : Added st st' qs es) (h' : Added st' st'' qs' es') :
    Added st st'' (qs ++ qs') (es ++ es') where
  extLbaBase := h'.extLbaBase.trans h.extLbaBase
  prims := by rw [h'.prims, h.prims, List.append_assoc]
  logics := by rw [h'.logics, h.logics, List.append_assoc]

theorem Added.addLogic (st : ScanState) (e : Extent) : Added st (st.addLogic e) [] [e] :=
  ⟨rfl, (List.append_nil _).symm, st.logics_addLogic e⟩

theorem Added.addPrim (st : ScanState) (e : Extent) : Added st (st.addPrim e) [e] [] :=
  ⟨rfl, st.prims_addPrim e, (List.append_nil _).symm⟩

theorem Added.lNo (h : Added st st' qs es) : st'.lNo = st.lNo + es.length := by
  rw [← ScanState.length_logics, h.logics, List.length_append, ScanState.length_logics]

theorem Added.pNo (h : Added st st' qs es) : st'.pNo = st.pNo + qs.length := by
  rw [← ScanState.length_prims, h.prims, List.length_append, ScanState.length_prims]

end Added

section Forward

variable {hd : Disk} {base lba n : ℕ} {ps : List PartitionTableEntry} {es : List Extent}
  {scan : ℕ → ScanState → Outcome ScanState} {p : PartitionTableEntry} {st : ScanState}

/-- The code visits the tables, if it is given enough depth. -/
theorem Visits.exists_scanTable (hbase : base ≠ 0) (h : Visits hd base lba ps n es) :
    ∃ depth, ∀ fuel ≥ depth, ∀ st : ScanState, st.extLbaBase = base → st.lNo = n →
      ∃ st', scanTable (partitionScan hd fuel) lba ps st = .ok st' ∧ Added st st' [] es := by
  induction h with
  | nil => exact ⟨0, fun _ _ st _ _ => ⟨st, rfl, .refl st⟩⟩
  | empty hp _ ih =>
    obtain ⟨depth, ih⟩ := ih
    refine ⟨depth, fun fuel hfuel st hst hn => ?_⟩
    rw [scanTable_empty hp]
    exact ih fuel hfuel st hst hn
  | @plain lba n p ps es hlba hp hlt _ ih =>
    obtain ⟨depth, ih⟩ := ih
    refine ⟨depth, fun fuel hfuel st hst hn => ?_⟩
    rw [scanTable_logic hp hlba, access, if_pos (by omega), ok_bind, if_neg (by omega)]
    obtain ⟨st', hrun, hlog⟩ := ih fuel hfuel (st.addLogic (extentAt lba p)) hst
      (congrArg (· + 1) hn)
    exact ⟨st', hrun, (Added.addLogic st _).trans hlog⟩
  | @eighth lba p ps hlba hp =>
    refine ⟨0, fun fuel _ st hst hn => ?_⟩
    rw [scanTable_logic hp hlba, access, if_pos (by omega), ok_bind, if_pos (by omega)]
    exact ⟨_, rfl, .addLogic st _⟩
  | @link lba n p ps es es' hp hle _ _ ih ih' =>
    obtain ⟨depth, ih⟩ := ih
    obtain ⟨depth', ih'⟩ := ih'
    refine ⟨max (depth + 1) depth', fun fuel hfuel st hst hn => ?_⟩
    obtain ⟨fuel, rfl⟩ := Nat.exists_eq_succ_of_ne_zero (show fuel ≠ 0 by omega)
    obtain ⟨st₁, hrun, hlog⟩ := ih fuel (by omega) st hst hn
    obtain ⟨st₂, hrun', hlog'⟩ := ih' (fuel + 1) (by omega) st₁ (hlog.extLbaBase.trans hst)
      (by rw [hlog.lNo, hn])
    refine ⟨st₂, ?_, hlog.trans hlog'⟩
    rw [scanTable_link hp (by rwa [hst]), hst]
    refine bind_eq_ok.2 ⟨st₁, ?_, hrun'⟩
    exact bind_eq_ok.2 ⟨(), assert_eq_ok.2 hle, hrun⟩

end Forward

/-! ## What a scan that ends has visited -/

section Backward

variable {hd : Disk} {base lba : ℕ} {ps : List PartitionTableEntry} {es : List Extent}
  {scan : ℕ → ScanState → Outcome ScanState} {p : PartitionTableEntry} {st st' : ScanState}

/-- A scan of the entries `ps` that ends: it keeps the base, and if it has added no primary
partition, then it has visited the entries. -/
structure Ended (hd : Disk) (lba : ℕ) (ps : List PartitionTableEntry) (st st' : ScanState) :
    Prop where
  extLbaBase : st'.extLbaBase = st.extLbaBase
  pNo_le : st.pNo ≤ st'.pNo
  visits : st'.pNo = st.pNo →
    ∃ es, Visits hd st.extLbaBase lba ps st.lNo es ∧ Added st st' [] es

/-- The same for the recursive call. -/
def ScanEnds (hd : Disk) (scan : ℕ → ScanState → Outcome ScanState) : Prop :=
  ∀ lba st st', st.extLbaBase ≠ 0 → scan lba st = .ok st' →
    lba ≤ maxLba ∧ Ended hd lba (partitionTable (hd lba)) st st'

theorem ScanEnds.ended (hscan : ScanEnds hd scan) : ∀ {st st' : ScanState},
    st.extLbaBase ≠ 0 → scanTable scan lba ps st = .ok st' → Ended hd lba ps st st' := by
  induction ps with
  | nil =>
    intro st st' _ hrun
    obtain rfl := pure_eq_ok.1 hrun
    exact ⟨rfl, le_rfl, fun _ => ⟨[], .nil, .refl st⟩⟩
  | cons p ps ih =>
    intro st st' hbase hrun
    rcases p.kind with ⟨hp, -⟩ | ⟨hp, -, -⟩ | ⟨hp, -⟩
    · rw [scanTable_link hp hbase] at hrun
      obtain ⟨st₁, hrun₁, hrun⟩ := bind_eq_ok.1 hrun
      obtain ⟨hle, h₁⟩ := hscan _ _ _ hbase hrun₁
      have h₂ := ih (by rwa [h₁.extLbaBase]) hrun
      have hle₁ := h₁.pNo_le
      have hle₂ := h₂.pNo_le
      refine ⟨h₂.extLbaBase.trans h₁.extLbaBase, by omega, fun hpNo => ?_⟩
      obtain ⟨es₁, hvisits₁, hlog₁⟩ := h₁.visits (by omega)
      obtain ⟨es₂, hvisits₂, hlog₂⟩ := h₂.visits (by omega)
      rw [h₁.extLbaBase, hlog₁.lNo] at hvisits₂
      exact ⟨es₁ ++ es₂, .link hp hle hvisits₁ hvisits₂, hlog₁.trans hlog₂⟩
    · rw [scanTable_empty hp] at hrun
      have h := ih hbase hrun
      refine ⟨h.extLbaBase, h.pNo_le, fun hpNo => ?_⟩
      obtain ⟨es, hvisits, hlog⟩ := h.visits hpNo
      exact ⟨es, .empty hp hvisits, hlog⟩
    by_cases hlba : lba = 0
    · subst hlba
      rw [scanTable_prim hp] at hrun
      obtain ⟨_, -, hrun⟩ := bind_eq_ok.1 hrun
      have h := @ih (st.addPrim (extentAt 0 p)) st' hbase hrun
      have hle : st.pNo + 1 ≤ st'.pNo := h.pNo_le
      exact ⟨h.extLbaBase, by omega, fun hpNo => absurd hpNo (by omega)⟩
    · rw [scanTable_logic hp hlba] at hrun
      -- the ninth would be written behind the array
      obtain ⟨_, hacc, hrun⟩ := bind_eq_ok.1 hrun
      have hn := access_eq_ok.1 hacc
      split at hrun
      · obtain rfl := Except.ok.inj hrun
        refine ⟨rfl, le_rfl, fun _ => ⟨_, ?_, .addLogic st _⟩⟩
        rw [show st.lNo = 7 by omega]
        exact .eighth hlba hp
      · have h := @ih (st.addLogic (extentAt lba p)) st' hbase hrun
        refine ⟨h.extLbaBase, h.pNo_le, fun hpNo => ?_⟩
        obtain ⟨es, hvisits, hlog⟩ := h.visits hpNo
        exact ⟨_, .plain hlba hp (by omega) hvisits, (Added.addLogic st _).trans hlog⟩

theorem scanEnds_partitionScan (hd : Disk) (fuel : ℕ) : ScanEnds hd (partitionScan hd fuel) := by
  induction fuel with
  | zero => exact fun _ _ _ _ hrun => nomatch hrun
  | succ fuel ih =>
    intro lba st st' hbase hrun
    obtain ⟨_, hle, hrun⟩ := bind_eq_ok.1 hrun
    exact ⟨assert_eq_ok.1 hle, ih.ended hbase hrun⟩

end Backward

/-! ## The master boot record -/

section Mbr

variable {hd : Disk} {base n : ℕ} {ps : List PartitionTableEntry} {es : List Extent}
  {scan : ℕ → ScanState → Outcome ScanState} {p : PartitionTableEntry} {st st' : ScanState}

theorem length_primsOf (ps : List PartitionTableEntry) :
    (primsOf ps).length = ps.countP (·.Plain) := by
  rw [primsOf, List.length_map, List.countP_eq_length_filter]

@[simp] theorem primsOf_cons_of_plain (hp : p.Plain) (ps : List PartitionTableEntry) :
    primsOf (p :: ps) = extentAt 0 p :: primsOf ps := by
  rw [primsOf, List.filter_cons_of_pos (by simpa using hp), List.map_cons, primsOf]

@[simp] theorem primsOf_cons_of_not_plain (hp : ¬ p.Plain) (ps : List PartitionTableEntry) :
    primsOf (p :: ps) = primsOf ps := by
  rw [primsOf, List.filter_cons_of_neg (by simpa using hp), primsOf]

/-- No limit ends the loop over the master boot record. -/
theorem scanTable_append (pre : List PartitionTableEntry) : ∀ st : ScanState,
    scanTable scan 0 (pre ++ ps) st = scanTable scan 0 pre st >>= scanTable scan 0 ps := by
  induction pre with
  | nil => exact fun st => rfl
  | cons p pre ih =>
    intro st
    rw [List.cons_append]
    rcases p.kind with ⟨hp, -⟩ | ⟨hp, -, -⟩ | ⟨hp, -⟩
    · by_cases hbase : st.extLbaBase = 0
      · rw [scanTable_first hp hbase, scanTable_first hp hbase, bind_assoc]
        exact congrArg _ (funext ih)
      · rw [scanTable_link hp hbase, scanTable_link hp hbase, bind_assoc]
        exact congrArg _ (funext ih)
    · rw [scanTable_empty hp, scanTable_empty hp, ih]
    · rw [scanTable_prim hp, scanTable_prim hp, bind_assoc]
      exact congrArg _ (funext fun _ => ih _)

/-- Entries of the master boot record whose links can be visited are scanned. -/
theorem exists_scanTable_mbr (hbase : ∀ q ∈ ps, q.Extended → base ≠ 0) :
    ∀ {n : ℕ} {es : List Extent},
    Visits hd base 0 (ps.filter (·.Extended)) n es →
    ∃ depth, ∀ fuel ≥ depth, ∀ st : ScanState, st.extLbaBase = base → st.lNo = n →
      st.pNo + (primsOf ps).length ≤ 3 →
      ∃ st', scanTable (partitionScan hd fuel) 0 ps st = .ok st' ∧
        Added st st' (primsOf ps) es := by
  induction ps with
  | nil =>
    intro n es h
    cases h
    exact ⟨0, fun _ _ st _ _ _ => ⟨st, rfl, .refl st⟩⟩
  | cons p ps ih =>
    intro n es h
    have ih' := fun {n es} => @ih (fun q hq => hbase q (List.mem_cons_of_mem _ hq)) n es
    rcases p.kind with ⟨hp, hne⟩ | ⟨hp, hext, hne⟩ | ⟨hp, hext⟩
    · rw [List.filter_cons_of_pos (by simpa using hp)] at h
      rw [primsOf_cons_of_not_plain hne]
      cases h with
      | empty h0 => exact absurd hp (not_extended_of_empty h0)
      | plain hlba => exact absurd rfl hlba
      | eighth hlba => exact absurd rfl hlba
      | @link _ _ _ _ es₁ es₂ _ hle h₁ h₂ =>
        have hne := hbase p List.mem_cons_self hp
        obtain ⟨depth₁, hrun₁⟩ := h₁.exists_scanTable hne
        obtain ⟨depth₂, hrun₂⟩ := ih' h₂
        refine ⟨max (depth₁ + 1) depth₂, fun fuel hfuel st hst hn hpNo => ?_⟩
        obtain ⟨fuel, rfl⟩ := Nat.exists_eq_succ_of_ne_zero (show fuel ≠ 0 by omega)
        obtain ⟨st₁, hrun₁, hadd₁⟩ := hrun₁ fuel (by omega) st hst hn
        obtain ⟨st₂, hrun₂, hadd₂⟩ := hrun₂ (fuel + 1) (by omega) st₁
          (hadd₁.extLbaBase.trans hst) (by rw [hadd₁.lNo, hn]) (by rw [hadd₁.pNo]; exact hpNo)
        refine ⟨st₂, ?_, hadd₁.trans hadd₂⟩
        rw [scanTable_link hp (by rwa [hst]), hst]
        exact bind_eq_ok.2 ⟨st₁, bind_eq_ok.2 ⟨(), assert_eq_ok.2 hle, hrun₁⟩, hrun₂⟩
    all_goals
      rw [List.filter_cons_of_neg (by simpa using hext)] at h
      obtain ⟨depth, hrun⟩ := ih' h
      refine ⟨depth, fun fuel hfuel st hst hn hpNo => ?_⟩
    · rw [primsOf_cons_of_not_plain hne] at hpNo ⊢
      rw [scanTable_empty hp]
      exact hrun fuel hfuel st hst hn hpNo
    · rw [primsOf_cons_of_plain hp] at hpNo ⊢
      rw [List.length_cons] at hpNo
      obtain ⟨st', hrun, hadd⟩ := hrun fuel hfuel (st.addPrim (extentAt 0 p)) hst hn
        (by change st.pNo + 1 + _ ≤ 3; omega)
      refine ⟨st', ?_, (Added.addPrim st _).trans hadd⟩
      rw [scanTable_prim hp]
      exact bind_eq_ok.2 ⟨(), assert_eq_ok.2 (by omega), hrun⟩

/-- A scan of entries of the master boot record that ends: if it has added no more primary
partitions than there are, then it has visited the links. -/
@[mk_iff] structure EndedMbr (hd : Disk) (ps : List PartitionTableEntry)
    (st st' : ScanState) : Prop where
  extLbaBase : st'.extLbaBase = st.extLbaBase
  pNo_le : st.pNo + (primsOf ps).length ≤ st'.pNo
  visits : st'.pNo = st.pNo + (primsOf ps).length →
    ∃ es, Visits hd st.extLbaBase 0 (ps.filter (·.Extended)) st.lNo es ∧
      Added st st' (primsOf ps) es

theorem ScanEnds.endedMbr (hscan : ScanEnds hd scan) : ∀ {st st' : ScanState},
    (∀ q ∈ ps, q.Extended → st.extLbaBase ≠ 0) → scanTable scan 0 ps st = .ok st' →
    EndedMbr hd ps st st' := by
  induction ps with
  | nil =>
    intro st st' _ hrun
    obtain rfl := pure_eq_ok.1 hrun
    exact ⟨rfl, le_rfl, fun _ => ⟨[], .nil, .refl st⟩⟩
  | cons p ps ih =>
    intro st st' hbase hrun
    have hbase' := fun q hq => hbase q (List.mem_cons_of_mem p hq)
    rcases p.kind with ⟨hp, hne⟩ | ⟨hp, hext, hne⟩ | ⟨hp, hext⟩
    · have hne' := hbase p List.mem_cons_self hp
      rw [scanTable_link hp hne'] at hrun
      obtain ⟨st₁, hrun₁, hrun⟩ := bind_eq_ok.1 hrun
      obtain ⟨hle, h₁⟩ := hscan _ _ _ hne' hrun₁
      have h₂ := ih (by rwa [h₁.extLbaBase]) hrun
      have hle₁ := h₁.pNo_le
      have hle₂ := h₂.pNo_le
      rw [endedMbr_iff, primsOf_cons_of_not_plain hne, List.filter_cons_of_pos (by simpa using hp)]
      refine ⟨h₂.extLbaBase.trans h₁.extLbaBase, by omega, fun hpNo => ?_⟩
      obtain ⟨es₁, hvisits₁, hadd₁⟩ := h₁.visits (by omega)
      obtain ⟨es₂, hvisits₂, hadd₂⟩ := h₂.visits (by omega)
      rw [h₁.extLbaBase, hadd₁.lNo] at hvisits₂
      exact ⟨es₁ ++ es₂, .link hp hle hvisits₁ hvisits₂, hadd₁.trans hadd₂⟩
    all_goals rw [endedMbr_iff, List.filter_cons_of_neg (by simpa using hext)]
    · rw [scanTable_empty hp] at hrun
      rw [primsOf_cons_of_not_plain hne, ← endedMbr_iff]
      exact ih hbase' hrun
    · rw [scanTable_prim hp] at hrun
      obtain ⟨_, -, hrun⟩ := bind_eq_ok.1 hrun
      have h := @ih (st.addPrim (extentAt 0 p)) st' hbase' hrun
      have hle : st.pNo + 1 + (primsOf ps).length ≤ st'.pNo := h.pNo_le
      rw [primsOf_cons_of_plain hp, List.length_cons]
      refine ⟨h.extLbaBase, by omega, fun hpNo => ?_⟩
      obtain ⟨es, hvisits, hadd⟩ := h.visits (by change st'.pNo = st.pNo + 1 + _; omega)
      exact ⟨es, hvisits, (Added.addPrim st _).trans hadd⟩

/-- The assertion keeps the number of primary partitions below four. -/
theorem scanKeeps_pNo : ScanKeeps (·.pNo ≤ 3) :=
  ⟨fun _ _ _ hle => hle, fun _ _ hlt _ => Nat.lt_succ_iff.1 hlt, fun _ _ hle => hle⟩

/-- Where the first extended entry stands. -/
theorem exists_split {links : List PartitionTableEntry} (h : ps.filter (·.Extended) = p :: links) :
    ∃ pre post, ps = pre ++ p :: post ∧ (∀ q ∈ pre, ¬ q.Extended) ∧ p.Extended ∧
      post.filter (·.Extended) = links := by
  obtain ⟨pre, post, hps, hpre, hp, hpost⟩ := List.filter_eq_cons_iff.1 h
  exact ⟨pre, post, hps, fun q hq => by simpa using hpre q hq, of_decide_eq_true hp, hpost⟩

/-- An extended entry that leads to the master boot record again: the scan does not end. -/
theorem partitionScan_ne_ok {pre post : List PartitionTableEntry}
    (hps : partitionTable (hd 0) = pre ++ p :: post) (hpre : ∀ q ∈ pre, ¬ q.Extended)
    (hp : p.Extended) (h0 : p.startLba = 0) {fuel : ℕ} : ∀ {st st' : ScanState},
    st.extLbaBase = 0 → partitionScan hd fuel 0 st ≠ .ok st' := by
  induction fuel with
  | zero => exact fun _ hrun => nomatch hrun
  | succ fuel ih =>
    intro st st' hst hrun
    obtain ⟨_, -, hrun⟩ := bind_eq_ok.1 hrun
    rw [ideRead_apply, hps, scanTable_append] at hrun
    obtain ⟨st₁, hrun₁, hrun⟩ := bind_eq_ok.1 hrun
    have h₁ := (scanEnds_partitionScan hd fuel).endedMbr
      (fun q hq hext => absurd hext (hpre q hq)) hrun₁
    rw [scanTable_first hp (h₁.extLbaBase.trans hst), h0] at hrun
    obtain ⟨st₂, hrun₂, -⟩ := bind_eq_ok.1 hrun
    exact @ih { st₁ with extLbaBase := 0 } st₂ rfl hrun₂

theorem primsOf_append (ps ps' : List PartitionTableEntry) :
    primsOf (ps ++ ps') = primsOf ps ++ primsOf ps' := by
  rw [primsOf, List.filter_append, List.map_append, primsOf, primsOf]

theorem filter_eq_nil_of_not_extended (h : ∀ q ∈ ps, ¬ q.Extended) :
    ps.filter (·.Extended) = [] :=
  List.filter_eq_nil_iff.2 fun q hq => by simpa using h q hq

theorem Visits.eq_nil (h : Visits hd base 0 [] n es) : es = [] := by
  cases h
  rfl

/-! ## The whole scan -/

theorem scannable_of_scanRecords (h : ScanRecords hd) : Scannable hd := by
  obtain ⟨fuel, st, hall, hprims, -⟩ := h
  have hcount : st.pNo = (primsOf (partitionTable (hd 0))).length := by
    rw [← ScanState.length_prims, hprims, primaries]
  have hle : st.pNo ≤ 3 := scanKeeps_pNo.partitionScan (Nat.zero_le 3) hall
  refine ⟨by rw [← length_primsOf, ← hcount]; exact hle, fun p links hlinks => ?_⟩
  obtain ⟨pre, post, hps, hpre, hp, rfl⟩ := exists_split hlinks
  have h0 : p.startLba ≠ 0 := fun h0 => partitionScan_ne_ok hps hpre hp h0 rfl hall
  obtain _ | fuel := fuel
  · exact nomatch hall
  have hscan := scanEnds_partitionScan hd fuel
  obtain ⟨_, -, hrun⟩ := bind_eq_ok.1 hall
  rw [ideRead_apply, hps, scanTable_append] at hrun
  obtain ⟨st₁, hrun₁, hrun⟩ := bind_eq_ok.1 hrun
  have h₁ := hscan.endedMbr (fun q hq hext => absurd hext (hpre q hq)) hrun₁
  rw [scanTable_first hp h₁.extLbaBase] at hrun
  obtain ⟨st₂, hrun₂, hrun₃⟩ := bind_eq_ok.1 hrun
  obtain ⟨hmax, h₂⟩ := hscan _ { st₁ with extLbaBase := p.startLba } st₂ h0 hrun₂
  have hbase : st₂.extLbaBase = p.startLba := h₂.extLbaBase
  have h₃ := hscan.endedMbr (fun _ _ _ => by rwa [hbase]) hrun₃
  -- all primary partitions are those of the master boot record, so the links have added none
  rw [hps, primsOf_append, primsOf_cons_of_not_plain fun h => h.1 hp,
    List.length_append] at hcount
  have hle₁ : 0 + (primsOf pre).length ≤ st₁.pNo := h₁.pNo_le
  have hle₂ : st₁.pNo ≤ st₂.pNo := h₂.pNo_le
  have hle₃ := h₃.pNo_le
  obtain ⟨es₀, hvisits₀, hadd₀⟩ := h₁.visits (by change st₁.pNo = 0 + _; omega)
  rw [filter_eq_nil_of_not_extended hpre] at hvisits₀
  obtain rfl := hvisits₀.eq_nil
  have hlNo : st₁.lNo = 0 := hadd₀.lNo
  obtain ⟨es₁, hvisits₁, hadd₁⟩ := h₂.visits (by change st₂.pNo = st₁.pNo; omega)
  obtain ⟨es₂, hvisits₂, -⟩ := h₃.visits (by omega)
  have hlNo₂ : st₂.lNo = es₁.length := by
    rw [hadd₁.lNo, show ({ st₁ with extLbaBase := p.startLba } : ScanState).lNo = 0 from hlNo,
      Nat.zero_add]
  rw [hbase, hlNo₂] at hvisits₂
  refine ⟨h0, hmax, es₁, es₂, ?_, hvisits₂⟩
  have hvisits : Visits hd p.startLba p.startLba (partitionTable (hd p.startLba)) st₁.lNo es₁ :=
    hvisits₁
  rwa [hlNo] at hvisits

theorem Scannable.scanRecords (h : Scannable hd) : ScanRecords hd := by
  have hprims := h.prims
  rw [← length_primsOf] at hprims
  cases hlinks : extendedEntries hd with
  | nil =>
    have hnone : ∀ q ∈ partitionTable (hd 0), q.Extended → (0 : ℕ) ≠ 0 := fun q hq hext =>
      absurd (decide_eq_true hext) (List.filter_eq_nil_iff.1 hlinks q hq)
    have hvisits : Visits hd 0 0 ((partitionTable (hd 0)).filter (·.Extended)) 0 [] := by
      rw [show (partitionTable (hd 0)).filter (·.Extended) = [] from hlinks]
      exact .nil
    obtain ⟨depth, hrun⟩ := exists_scanTable_mbr hnone hvisits
    obtain ⟨st, hrun, hadd⟩ := hrun depth le_rfl .initial rfl rfl (by
      change 0 + _ ≤ 3
      omega)
    refine ⟨depth + 1, st, bind_eq_ok.2 ⟨(), assert_eq_ok.2 (Nat.zero_le _), hrun⟩, hadd.prims,
      Or.inl ⟨hlinks, hadd.logics⟩⟩
  | cons p links =>
    obtain ⟨h0, hmax, es₁, es₂, hvisits₁, hvisits₂⟩ := h.visits p links hlinks
    obtain ⟨pre, post, hps, hpre, hp, rfl⟩ := exists_split hlinks
    rw [hps, primsOf_append, primsOf_cons_of_not_plain fun h => h.1 hp,
      List.length_append] at hprims
    have hvisits₀ : Visits hd 0 0 (pre.filter (·.Extended)) 0 [] := by
      rw [filter_eq_nil_of_not_extended hpre]
      exact .nil
    obtain ⟨depth₀, hrun₀⟩ := exists_scanTable_mbr
      (fun q hq hext => absurd hext (hpre q hq)) hvisits₀
    obtain ⟨depth₁, hrun₁⟩ := hvisits₁.exists_scanTable h0
    obtain ⟨depth₂, hrun₂⟩ := exists_scanTable_mbr (fun _ _ _ => h0) hvisits₂
    have hfuel : ∃ fuel, depth₀ ≤ fuel + 1 ∧ depth₁ ≤ fuel ∧ depth₂ ≤ fuel + 1 :=
      ⟨max depth₀ (max depth₁ depth₂), by omega, by omega, by omega⟩
    obtain ⟨fuel, hfuel₀, hfuel₁, hfuel₂⟩ := hfuel
    obtain ⟨st₀, hrun₀, hadd₀⟩ := hrun₀ (fuel + 1) hfuel₀ .initial rfl rfl (by
      change 0 + _ ≤ 3
      omega)
    have hpNo₀ : st₀.pNo = 0 + (primsOf pre).length := hadd₀.pNo
    obtain ⟨st₁, hrun₁, hadd₁⟩ := hrun₁ fuel hfuel₁ { st₀ with extLbaBase := p.startLba } rfl
      hadd₀.lNo
    have hpNo₁ : st₁.pNo = st₀.pNo := hadd₁.pNo
    have hlNo₁ : st₁.lNo = st₀.lNo + es₁.length := hadd₁.lNo
    have hlNo₀ : st₀.lNo = 0 := hadd₀.lNo
    obtain ⟨st₂, hrun₂, hadd₂⟩ := hrun₂ (fuel + 1) hfuel₂ st₁ hadd₁.extLbaBase (by omega) (by omega)
    refine ⟨fuel + 2, st₂, bind_eq_ok.2 ⟨(), assert_eq_ok.2 (Nat.zero_le _), ?_⟩, ?_, Or.inr
      ⟨p, _, es₁, es₂, hlinks, hmax, hvisits₁.firstFound (Nat.zero_le 8),
        hvisits₂.firstFound ?_, ?_⟩⟩
    · rw [ideRead_apply, hps, scanTable_append]
      refine bind_eq_ok.2 ⟨st₀, hrun₀, ?_⟩
      rw [scanTable_first hp hadd₀.extLbaBase]
      exact bind_eq_ok.2 ⟨st₁, bind_eq_ok.2 ⟨(), assert_eq_ok.2 hmax, hrun₁⟩, hrun₂⟩
    · have hprims₁ : st₁.prims = st₀.prims ++ [] := hadd₁.prims
      have hprims₀ : st₀.prims = [] ++ primsOf pre := hadd₀.prims
      rw [hadd₂.prims, hprims₁, hprims₀, List.append_nil, List.nil_append, primaries, hps,
        primsOf_append, primsOf_cons_of_not_plain fun h => h.1 hp]
    · have hlen := hvisits₁.length_le (Nat.zero_le 8)
      omega
    · have hlogics₁ : st₁.logics = st₀.logics ++ es₁ := hadd₁.logics
      have hlogics₀ : st₀.logics = [] ++ [] := hadd₀.logics
      rw [hadd₂.logics, hlogics₁, hlogics₀, List.append_nil, List.nil_append]

end Mbr

/-- **A scan records the partitions of a disk exactly if the disk can be scanned.** The depth of
the stack and a `sys_malloc` that fails are not modelled. -/
theorem scanRecords_iff (hd : Disk) : ScanRecords hd ↔ Scannable hd :=
  ⟨scannable_of_scanRecords, Scannable.scanRecords⟩

/-- The disk with one logical partition can be scanned. -/
theorem scanRecords_probe : ScanRecords probeDisk := by
  refine (scanRecords_iff probeDisk).2 ⟨by decide, fun p links hlinks => ?_⟩
  have hentries : extendedEntries probeDisk = [⟨5, 1, 1⟩] := by decide
  obtain ⟨rfl, rfl⟩ := List.cons.inj (hentries.symm.trans hlinks)
  refine ⟨by decide, by decide, [extentAt 1 ⟨0x83, 1, 1⟩], [], ?_, .nil⟩
  rw [partitionTable_probe_one]
  exact .plain (by decide) (by decide) (by decide) (.empty rfl (.empty rfl (.empty rfl .nil)))

/-- A master boot record with four primary partitions. -/
def fourPrimaries : Disk := fun l i =>
  if l = 0 ∧ 446 ≤ i ∧ i < 510 ∧ (i - 446) % 16 = 4 then 0x83 else 0

/-- The assertion after the fourth primary partition fails. -/
theorem not_scanRecords_four : ¬ ScanRecords fourPrimaries := fun h =>
  absurd (scannable_of_scanRecords h).prims (by decide)

end Gardos.Device
