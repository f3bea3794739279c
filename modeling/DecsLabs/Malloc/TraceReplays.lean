/-
The replays of a trace that was read from a file. The reader compares the largest index of an allocation with the count
of indices; it looks neither at the indices that are freed nor at the sizes.

- `WellFormed.inArray`: the indices of a balanced trace that was read are in its arrays.
- `trace_in_bounds`: no replay of such a trace leaves the arrays, whatever the package does.
- `validOps_stop`: what the check has passed when it stops.
- `report_line`: an error message names the line of the request at which the check stops.
-/
import DecsLabs.Malloc.TraceFile
import DecsLabs.Malloc.Replays

namespace DecsLabs.Malloc

open DecsLabs.Scanf DecsLabs.Transition

variable {σ : Type} {pkg : Package σ} {d : Driver σ} {t t' : Trace} {malloc : ℕ → UInt32 → Bool} {size : UInt32}
  {text : List Char} {index : Int32} {live : List Int32} {ops : List TraceOp} {op : TraceOp}

/-! ## Indices in the arrays -/

theorem inArray_of_lt {k : ℕ} (hk : k ≤ 2 ^ 31) (h : index.toUInt32.toNat < k) : InArray k index := by
  have hneg := toInt32_neg_iff index.toUInt32
  rw [Int32.toInt32_toUInt32] at hneg
  have hnonneg : ¬ index < 0 := by
    intro hlt
    have hbig := hneg.1 hlt
    omega
  refine ⟨hnonneg, ?_⟩
  by_cases hpos : index > 0
  · rw [place_of_pos hpos]
    exact h
  · rw [gt_iff_lt, Int32.lt_iff_toInt_lt, Int32.toInt_zero] at hpos
    rw [place, Int.toNat_of_nonpos (not_lt.1 hpos)]
    omega

/-- in a balanced trace an index that is freed was allocated before -/
theorem inArray_of_balanced {k : ℕ} (hbal : Along indexStep Proper live ops) (hlive : ∀ i ∈ live, InArray k i)
    (hops : ∀ op ∈ ops, (∀ i, op ≠ .free i) → InArray k op.index) : ∀ op ∈ ops, InArray k op.index := by
  induction ops generalizing live with
  | nil => exact fun op hop => absurd hop List.not_mem_nil
  | cons op ops ih =>
    obtain ⟨hop, hrest⟩ := List.forall_mem_cons.1 hops
    have hfirst : InArray k op.index ∧ ∀ i ∈ inUse live op, InArray k i := by
      cases op with
      | alloc index size =>
        have hindex := hop fun i hi => (by cases hi)
        exact ⟨hindex, List.forall_mem_cons.2 ⟨hindex, hlive⟩⟩
      | realloc index size =>
        have hindex := hop fun i hi => (by cases hi)
        exact ⟨hindex, List.forall_mem_cons.2 ⟨hindex, fun i hi => hlive i (List.mem_of_mem_erase hi)⟩⟩
      | free index => exact ⟨hlive index hbal.1, fun i hi => hlive i (List.mem_of_mem_erase hi)⟩
    exact List.forall_mem_cons.2 ⟨hfirst.1, ih (hbal.2 _ rfl) hfirst.2 hrest⟩

theorem WellFormed.inArray (ht : WellFormed t) (hids : 0 < t.numIds.toInt ∧ t.numIds.toInt < 2 ^ 30) (hbal : Balanced t.ops) :
    ∀ op ∈ t.ops, InArray (capacity t.numIds wordBytes) op.index := by
  have hpos : t.numIds > 0 := Int32.lt_iff_toInt_lt.2 (by rw [Int32.toInt_zero]; exact hids.1)
  have hnat := place_of_pos hpos
  unfold place at hnat
  have hone : (1 : Int32).toUInt32.toNat = 1 := rfl
  have hword : wordBytes.toNat = 4 := rfl
  have hcap : capacity t.numIds wordBytes = t.numIds.toUInt32.toNat := by
    rw [capacity, bytesFor, UInt32.toNat_mul, hword]
    omega
  have hlast : (t.numIds - 1).toUInt32.toNat = t.numIds.toUInt32.toNat - 1 := by
    rw [Int32.toUInt32_sub, UInt32.toNat_sub, hone]
    omega
  apply inArray_of_balanced hbal (fun i hi => absurd hi List.not_mem_nil)
  intro op hop hfree
  have hbelow := ht.below op hop
  rw [hcap]
  apply inArray_of_lt (by omega)
  cases op with
  | alloc index size =>
    change index.toUInt32.toNat ≤ _ at hbelow
    change index.toUInt32.toNat < _
    omega
  | realloc index size =>
    change index.toUInt32.toNat ≤ _ at hbelow
    change index.toUInt32.toNat < _
    omega
  | free index => exact absurd rfl (hfree index)

theorem addRange_inside {h : Heap} {ranges : List Range} {lo : UInt32} {size : Int32} :
    addRange h ranges lo size ≠ .error .outOfBounds := by
  unfold addRange
  dsimp only
  by_cases hsize : size > 0
  swap
  · simp [hsize]
  by_cases hdvd : isAligned lo
  swap
  · simp [hsize, hdvd]
  rw [if_neg (not_not.2 hsize), if_neg (not_not.2 hdvd)]
  cases ranges.find? (Range.overlaps lo (lo + size.toUInt32 - 1)) with
  | some p => split_ifs <;> simp
  | none => split_ifs <;> simp

theorem validOp_inside (hindex : InArray d.slots.length op.index) :
    (validOp pkg d op).1 ≠ some .outOfBounds ∧ (validOp pkg d op).2.slots.length = d.slots.length := by
  obtain ⟨old, hold⟩ := Option.isSome_iff_exists.1 (entry_isSome_iff.2 hindex)
  cases op with
  | alloc index size =>
    change entry d.slots index = some old at hold
    rcases hcall : pkg.mmMalloc d.machine size.toUInt32 with ⟨p, m⟩
    have hadd : addRange m.heap d.ranges p size ≠ .error .outOfBounds := addRange_inside
    cases hresult : addRange m.heap d.ranges p size with
    | error e =>
      rw [hresult] at hadd
      simp only [validOp, hcall, hresult]
      split_ifs
      · simp
      · exact ⟨fun h => hadd (congrArg Except.error (Option.some.inj h)), rfl⟩
    | ok ranges =>
      simp only [validOp, hcall, hresult, hold]
      split_ifs <;> simp
  | realloc index size =>
    change entry d.slots index = some old at hold
    rcases hcall : pkg.mmRealloc d.machine old.block size.toUInt32 with ⟨p, m⟩
    have hadd : addRange m.heap (removeRange d.ranges old.block) p size ≠ .error .outOfBounds := addRange_inside
    cases hresult : addRange m.heap (removeRange d.ranges old.block) p size with
    | error e =>
      rw [hresult] at hadd
      simp only [validOp, hold, hcall, hresult]
      split_ifs
      · simp
      · exact ⟨fun h => hadd (congrArg Except.error (Option.some.inj h)), rfl⟩
    | ok ranges =>
      simp only [validOp, hold, hcall, hresult]
      split_ifs <;> simp
  | free index =>
    change entry d.slots index = some old at hold
    simp [validOp, hold]

theorem validOps_inside {i k : ℕ} (hops : ∀ op ∈ ops, InArray d.slots.length op.index) :
    (validOps pkg k ops d).1 ≠ some (i, .outOfBounds) := by
  induction ops generalizing d k with
  | nil => exact fun h => by cases h
  | cons op ops ih =>
    obtain ⟨hop, hrest⟩ := List.forall_mem_cons.1 hops
    have hinside : (validOp pkg d op).1 ≠ some .outOfBounds ∧ _ := validOp_inside hop
    rw [validOps]
    rcases hstep : validOp pkg d op with ⟨_ | e, d1⟩
    · rw [hstep] at hinside
      exact ih (hinside.2.symm ▸ hrest)
    · rw [hstep] at hinside
      exact fun h => hinside.1 (congrArg some (Prod.ext_iff.1 (Option.some.inj h)).2)

theorem utilOp_inside {c : Tally σ} (hindex : InArray c.slots.length op.index) :
    utilOp pkg c op ≠ .error .outOfBounds ∧ ∀ c', utilOp pkg c op = .ok c' → c'.slots.length = c.slots.length := by
  obtain ⟨old, hold⟩ := Option.isSome_iff_exists.1 (entry_isSome_iff.2 hindex)
  constructor
  · cases op with
    | alloc index size =>
      change entry c.slots index = some old at hold
      simp only [utilOp, hold]
      split_ifs <;> simp
    | realloc index size =>
      change entry c.slots index = some old at hold
      simp only [utilOp, hold]
      split_ifs <;> simp
    | free index =>
      change entry c.slots index = some old at hold
      simp [utilOp, hold]
  · intro c' hc'
    cases utilOp_iff.1 hc' with
    | alloc => exact remember_length
    | realloc => exact remember_length
    | free => rfl

theorem speedOp_inside {c : Machine σ × List Slot} (hindex : InArray c.2.length op.index) :
    speedOp pkg c op ≠ .error .outOfBounds ∧ ∀ c', speedOp pkg c op = .ok c' → c'.2.length = c.2.length := by
  obtain ⟨old, hold⟩ := Option.isSome_iff_exists.1 (entry_isSome_iff.2 hindex)
  cases op with
  | alloc index size =>
    change entry c.2 index = some old at hold
    simp only [speedOp, hold]
    split_ifs
    · simp
    · refine ⟨by simp, ?_⟩
      rintro c' ⟨⟩
      exact List.length_set
  | realloc index size =>
    change entry c.2 index = some old at hold
    simp only [speedOp, hold]
    split_ifs
    · simp
    · refine ⟨by simp, ?_⟩
      rintro c' ⟨⟩
      exact List.length_set
  | free index =>
    change entry c.2 index = some old at hold
    simp only [speedOp, hold]
    refine ⟨by simp, ?_⟩
    rintro c' ⟨⟩
    rfl

/-- a replay whose operations stay inside of an array that keeps its length -/
theorem foldlM_inside {γ : Type} {f : γ → TraceOp → Except Exit γ} {len : γ → ℕ} {c : γ}
    (hf : ∀ c op, InArray (len c) op.index → f c op ≠ .error .outOfBounds ∧ ∀ c', f c op = .ok c' → len c' = len c)
    (hops : ∀ op ∈ ops, InArray (len c) op.index) : ops.foldlM f c ≠ .error .outOfBounds := by
  induction ops generalizing c with
  | nil => exact fun h => by cases h
  | cons op ops ih =>
    obtain ⟨hop, hrest⟩ := List.forall_mem_cons.1 hops
    obtain ⟨hinside, hlength⟩ := hf c op hop
    rw [List.foldlM_cons]
    cases hfirst : f c op with
    | error e =>
      rw [hfirst] at hinside
      exact hinside
    | ok c1 => exact ih (hlength c1 hfirst ▸ hrest)

/-- **Inside of the arrays.** For every package and every balanced trace that was read from a file, with a count of indices
above 0 and below 2^30: none of the three replays leaves the arrays of the trace. -/
theorem trace_in_bounds (h : readTrace malloc t' size text = .ok t) (hids : 0 < t.numIds.toInt ∧ t.numIds.toInt < 2 ^ 30)
    (hbal : Balanced t.ops) (hslots : d.slots.length = capacity t.numIds wordBytes) :
    (∀ i, (evalMmValid pkg t.ops d).1 ≠ some (i, .outOfBounds)) ∧
      evalMmUtil pkg t.ops d.machine d.slots ≠ .error .outOfBounds ∧
      evalMmSpeed pkg t.ops d.machine d.slots ≠ .error .outOfBounds := by
  have hops := (readTrace_wellFormed h).inArray hids hbal
  rw [← hslots] at hops
  refine ⟨?_, ?_, ?_⟩
  · intro i
    rw [evalMmValid]
    dsimp only
    split_ifs
    · simp
    · exact validOps_inside hops
  · have hinside : t.ops.foldlM (utilOp pkg) ⟨(pkg.mmInit d.machine.reset).2, d.slots, 0, 0⟩ ≠ .error .outOfBounds :=
      foldlM_inside (fun _ _ => utilOp_inside) hops
    rw [evalMmUtil]
    dsimp only
    split_ifs
    · simp
    · intro herror
      cases hrun : t.ops.foldlM (utilOp pkg) ⟨(pkg.mmInit d.machine.reset).2, d.slots, 0, 0⟩ with
      | error e =>
        rw [hrun] at herror hinside
        have hexit : (Except.error e : Except Exit (Int32 × UInt32)) = .error .outOfBounds := herror
        exact hinside (congrArg _ (Except.error.inj hexit))
      | ok c =>
        rw [hrun] at herror
        cases herror
  · rw [evalMmSpeed]
    dsimp only
    split_ifs
    · simp
    · exact foldlM_inside (fun _ _ => speedOp_inside) hops

theorem trace_in_bounds_example : (evalMmValid mm smallTrace.ops freshDriver).1 ≠ some (1, .outOfBounds) := by
  have hread : readTrace (fun _ _ => true) ⟨0, 0, 0, 0, []⟩ 0 (traceText smallTrace) = .ok smallTrace := by
    rw [readTrace_text ⟨rfl, rfl, rfl, rfl⟩, if_pos (by decide)]
    exact (check_text (by decide)).1 smallTrace_consistent
  exact (trace_in_bounds hread (by decide) (by decide) (by decide)).1 1

/-! ## Messages -/

/-- `LINENUM(i)` -/
def lineNum (i : ℕ) : ℕ := i + 5

theorem validOps_stop {k i : ℕ} {e : Stop} {d' : Driver σ} (h : validOps pkg k ops d = (some (i, e), d')) :
    ∃ j op d1, i = k + j ∧ ops[j]? = some op ∧ run (validStep pkg) d (ops.take j) = some d1 ∧
      validOp pkg d1 op = (some e, d') := by
  induction ops generalizing d k with
  | nil => cases h
  | cons op ops ih =>
    rw [validOps] at h
    rcases hstep : validOp pkg d op with ⟨_ | e', d1⟩
    · rw [hstep] at h
      obtain ⟨j, op', d2, rfl, hget, hrun, hstop⟩ := ih h
      refine ⟨j + 1, op', d2, by omega, hget, ?_, hstop⟩
      rw [List.take_succ_cons, run, validStep, hstep]
      exact hrun
    · rw [hstep] at h
      cases h
      exact ⟨0, op, d, rfl, rfl, rfl, hstep⟩

theorem newline_not_mem_numeral (v : ℤ) : '\n' ∉ numeral v := by
  have hdigits : '\n' ∉ Nat.toDigits 10 v.natAbs := fun h => absurd (toDigits_isDigit _ _ h) (by decide)
  unfold numeral
  split_ifs
  · simp [hdigits]
  · exact hdigits

theorem newline_not_mem_opText (op : TraceOp) : '\n' ∉ opText op := by
  have hdigits : ∀ i, '\n' ∉ unsigned i := fun i h => absurd (toDigits_isDigit _ _ h) (by decide)
  cases op with
  | alloc i size => simp [opText, hdigits]
  | realloc i size => simp [opText, hdigits]
  | free i => simp [opText, hdigits]

theorem splitOn_linesText {lines : List (List Char)} (h : ∀ l ∈ lines, '\n' ∉ l) :
    (linesText lines).splitOn '\n' = lines ++ [[]] := by
  induction lines with
  | nil => rfl
  | cons l lines ih =>
    obtain ⟨hl, hrest⟩ := List.forall_mem_cons.1 h
    have htext : linesText (l :: lines) = l ++ '\n' :: linesText lines := by simp [linesText]
    rw [htext, List.splitOn_append_cons_self_of_not_mem hl, ih hrest, List.cons_append]

/-- **The line in a message.** When `eval_mm_valid` stops on a printed trace, the line that its message names is the line
of the request that stopped it, and everything before was passed; that `mm_init` failed is reported on the line of the
first request. -/
theorem report_line {i : ℕ} {e : Stop} {d' : Driver σ} (h : evalMmValid pkg t.ops d = (some (i, e), d')) :
    (e = .complaint .initFailed ∧ lineNum i = 5) ∨
      ∃ op d1, ((traceText t).splitOn '\n')[lineNum i - 1]? = some (opText op) ∧
        evalMmValid pkg (t.ops.take i) d = (none, d1) ∧ validOp pkg d1 op = (some e, d') := by
  rw [evalMmValid] at h
  by_cases hinit : (pkg.mmInit d.machine.reset).1 < 0
  · simp only [if_pos hinit] at h
    cases h
    exact .inl ⟨rfl, rfl⟩
  · simp only [if_neg hinit] at h
    obtain ⟨j, op, d1, rfl, hget, hrun, hstop⟩ := validOps_stop h
    refine .inr ⟨op, d1, ?_, ?_, hstop⟩
    · have hlines : ∀ l ∈ headerLines t ++ t.ops.map opText, '\n' ∉ l := by
        intro l hl
        rcases List.mem_append.1 hl with hheader | hop
        · fin_cases hheader
          all_goals exact newline_not_mem_numeral _
        · obtain ⟨op', -, rfl⟩ := List.mem_map.1 hop
          exact newline_not_mem_opText op'
      have hlt : j < t.ops.length := (List.getElem?_eq_some_iff.1 hget).1
      have hplace : lineNum (0 + j) - 1 = (headerLines t).length + j := by
        change 0 + j + 5 - 1 = 4 + j
        omega
      rw [traceText, splitOn_linesText hlines, hplace, List.append_assoc, List.getElem?_append_right (Nat.le_add_right _ _),
        Nat.add_sub_cancel_left, List.getElem?_append_left (by rwa [List.length_map]), List.getElem?_map, hget, Option.map_some]
    · rw [zero_add]
      exact evalMmValid_iff.2 ⟨hinit, hrun⟩

/-- a request for no bytes, on line 6 -/
theorem report_line_example : ∃ op d1,
    ((traceText ⟨20000, 2, 2, 1, [.alloc 0 16, .alloc 1 0]⟩).splitOn '\n')[5]? = some (opText op) ∧
      evalMmValid mm [.alloc 0 16] freshDriver = (none, d1) ∧ (validOp mm d1 op).1 = some (.complaint .mallocFailed) := by
  have hstop : evalMmValid mm (Trace.mk 20000 2 2 1 [.alloc 0 16, .alloc 1 0]).ops freshDriver =
      (some (1, .complaint .mallocFailed), (evalMmValid mm [.alloc 0 16, .alloc 1 0] freshDriver).2) := rfl
  rcases report_line hstop with ⟨hinit, -⟩ | ⟨op, d1, hline, hpass, hop⟩
  · cases hinit
  · exact ⟨op, d1, hline, hpass, congrArg Prod.fst hop⟩

end DecsLabs.Malloc
