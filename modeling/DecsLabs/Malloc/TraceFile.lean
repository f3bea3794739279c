/-
The trace files of the driver (`read_trace` in mdriver.c, assignment 3): four numbers, and one request on each line. The
results of `fscanf` are not looked at, so a variable keeps its value where there is no number. The array of requests is
filled before their count is compared with the number in the file.

`malloc` is a parameter: whether its `k`-th call is granted a block of so many bytes.

- `readTrace`: the trace, or how the driver stops.
- `readRequests_spec`, `readTrace_wellFormed`: what is stored, and what is known of a trace that was read.
- `traceText`, `readTrace_traceText`: what a printed trace is read as.
-/
import DecsLabs.Core.Scanf
import DecsLabs.Malloc.Tracking

namespace DecsLabs.Malloc

open DecsLabs.Scanf DecsLabs.Transition

/-! ## Model -/

/-- `trace_t`, without the arrays of blocks -/
structure Trace where
  suggHeapsize : Int32
  numIds : Int32
  numOps : Int32
  weight : Int32
  ops : List TraceOp
deriving DecidableEq, Repr

/-- how the driver stops in `read_trace` -/
inductive ReadStop where
  | unixError (msg : String)
  /-- `Bogus type character (%c)`, and `exit(1)` -/
  | bogus (type : Char)
  /-- one of the two assertions at the end fails -/
  | assertion
  /-- something is stored outside of an array -/
  | outOfBounds
deriving DecidableEq, Repr

/-- `MAXLINE` -/
def maxLine : ℕ := 1024

/-- the bytes that are asked for, for `n` things of `k` bytes -/
def bytesFor (n : Int32) (k : UInt32) : UInt32 := n.toUInt32 * k

/-- the number of things that have room in these bytes -/
def capacity (n : Int32) (k : UInt32) : ℕ := (bytesFor n k).toNat / k.toNat

/-- `sizeof(traceop_t)` -/
def opBytes : UInt32 := 12

/-- `sizeof(char *)` and `sizeof(size_t)` -/
def wordBytes : UInt32 := 4

/-- the variables of the loop, and the requests that are stored -/
structure Reading where
  index : UInt32
  size : UInt32
  maxIndex : UInt32
  ops : List TraceOp

/-- `"%u %u"` -/
def readPair (r : Reading) (s : List Char) : UInt32 × UInt32 × List Char :=
  match scanNumber s with
  | (none, s) => (r.index, r.size, s)
  | (some i, s) => (toULong i, (scanNumber s).1.elim r.size toULong, (scanNumber s).2)

/-- `"%ud"`: a `d` behind the number is read as well -/
def readFreed (r : Reading) (s : List Char) : UInt32 × List Char :=
  match scanNumber s with
  | (none, s) => (r.index, s)
  | (some i, 'd' :: s) => (toULong i, s)
  | (some i, s) => (toULong i, s)

/-- `trace->ops[op_index]`, in an array of `n` requests -/
def Reading.store (r : Reading) (n : ℕ) (op : TraceOp) : Except ReadStop Reading :=
  if r.ops.length < n then .ok { r with ops := r.ops ++ [op] } else .error .outOfBounds

def Reading.larger (r : Reading) (index : UInt32) : UInt32 := if index > r.maxIndex then index else r.maxIndex

/-- the request of the type `type[0]`, with the text behind the word -/
def readRequest (n : ℕ) (r : Reading) (type : Char) (s : List Char) : Except ReadStop (Reading × List Char) :=
  match type with
  | 'a' =>
    let (index, size, s) := readPair r s
    (Reading.store ⟨index, size, r.larger index, r.ops⟩ n (.alloc index.toInt32 size.toInt32)).map fun r => (r, s)
  | 'r' =>
    let (index, size, s) := readPair r s
    (Reading.store ⟨index, size, r.larger index, r.ops⟩ n (.realloc index.toInt32 size.toInt32)).map fun r => (r, s)
  | 'f' =>
    let (index, s) := readFreed r s
    (Reading.store ⟨index, r.size, r.maxIndex, r.ops⟩ n (.free index.toInt32)).map fun r => (r, s)
  | type => .error (.bogus type)

theorem readPair_length (r : Reading) (s : List Char) : (readPair r s).2.2.length ≤ s.length := by
  have hfirst := scanNumber_length s
  unfold readPair
  split
  · rename_i t ht
    rw [ht] at hfirst
    exact hfirst
  · rename_i i t ht
    rw [ht] at hfirst
    exact (scanNumber_length t).trans hfirst

theorem readFreed_length (r : Reading) (s : List Char) : (readFreed r s).2.length ≤ s.length := by
  have hfirst := scanNumber_length s
  unfold readFreed
  split
  · rename_i t ht
    rw [ht] at hfirst
    exact hfirst
  · rename_i i t ht
    rw [ht] at hfirst
    exact Nat.le_of_succ_le hfirst
  · rename_i i t _ ht
    rw [ht] at hfirst
    exact hfirst

/-- an index of an allocation is no larger than `m` -/
def Below (m : UInt32) : TraceOp → Prop
  | .alloc index _ => index.toUInt32.toNat ≤ m.toNat
  | .realloc index _ => index.toUInt32.toNat ≤ m.toNat
  | .free _ => True

variable {n : ℕ} {r r' : Reading} {s s' : List Char} {type : Char} {op : TraceOp}

theorem store_eq_ok (h : ((r.store n op).map fun r => (r, s)) = .ok (r', s')) :
    r.ops.length < n ∧ r'.ops = r.ops ++ [op] ∧ r'.maxIndex = r.maxIndex ∧ s' = s := by
  unfold Reading.store at h
  split_ifs at h with hlt
  · cases h
    exact ⟨hlt, rfl, rfl, rfl⟩
  · cases h

theorem le_larger (r : Reading) (index : UInt32) :
    index.toNat ≤ (r.larger index).toNat ∧ r.maxIndex.toNat ≤ (r.larger index).toNat := by
  unfold Reading.larger
  split_ifs with hlt
  · exact ⟨le_rfl, (UInt32.lt_iff_toNat_lt.1 hlt).le⟩
  · exact ⟨not_lt.1 fun h => hlt (UInt32.lt_iff_toNat_lt.2 h), le_rfl⟩

/-- **One request.** -/
theorem readRequest_spec (h : readRequest n r type s = .ok (r', s')) :
    s'.length ≤ s.length ∧ r.ops.length < n ∧ r.maxIndex.toNat ≤ r'.maxIndex.toNat ∧
      ∃ op, r'.ops = r.ops ++ [op] ∧ Below r'.maxIndex op := by
  have hpair := readPair_length r s
  have hfreed := readFreed_length r s
  rcases hread : readPair r s with ⟨index, size, rest⟩
  rcases hfree : readFreed r s with ⟨index', rest'⟩
  have hlarger := le_larger r index
  have hindex := UInt32.toUInt32_toInt32 index
  rw [hread] at hpair
  rw [hfree] at hfreed
  unfold readRequest at h
  rw [hread, hfree] at h
  split at h
  · obtain ⟨hlt, hops, hmax, rfl⟩ := store_eq_ok h
    refine ⟨hpair, hlt, hmax ▸ hlarger.2, _, hops, ?_⟩
    rw [hmax, Below, hindex]
    exact hlarger.1
  · obtain ⟨hlt, hops, hmax, rfl⟩ := store_eq_ok h
    refine ⟨hpair, hlt, hmax ▸ hlarger.2, _, hops, ?_⟩
    rw [hmax, Below, hindex]
    exact hlarger.1
  · obtain ⟨hlt, hops, hmax, rfl⟩ := store_eq_ok h
    exact ⟨hfreed, hlt, hmax ▸ le_rfl, _, hops, trivial⟩
  · cases h

/-- the loop, up to the end of the text -/
def readRequests (n : ℕ) (r : Reading) (s : List Char) : Except ReadStop Reading :=
  match _hword : scanWord s with
  | none => .ok r
  | some (word, rest) =>
    if word.length ≥ maxLine then .error .outOfBounds
    else
      match _hread : readRequest n r (word.headD (Char.ofNat 0)) rest with
      | .error e => .error e
      | .ok (r, s') => readRequests n r s'
termination_by s.length
decreasing_by
  obtain ⟨_, _, -, hlt⟩ := scanWord_some _hword
  exact (readRequest_spec _hread).1.trans_lt hlt

/-- the four numbers; `t` is what the memory for the trace holds at first -/
def readHeader (t : Trace) (s : List Char) : Trace × List Char :=
  let (suggHeapsize, s) := readLong t.suggHeapsize s
  let (numIds, s) := readLong t.numIds s
  let (numOps, s) := readLong t.numOps s
  let (weight, s) := readLong t.weight s
  (⟨suggHeapsize, numIds, numOps, weight, []⟩, s)

/-- the assertions at the end -/
def Trace.check (t : Trace) (r : Reading) : Except ReadStop Trace :=
  if r.maxIndex = (t.numIds - 1).toUInt32 ∧ t.numOps.toUInt32 = UInt32.ofNat r.ops.length then .ok { t with ops := r.ops }
  else .error .assertion

/-- `read_trace` on a file that could be opened; `size` is what the variable holds at first -/
def readTrace (malloc : ℕ → UInt32 → Bool) (t : Trace) (size : UInt32) (text : List Char) : Except ReadStop Trace :=
  if ¬ malloc 1 28 then .error (.unixError "malloc 1 failed in read_trance")
  else
    let (t, s) := readHeader t text
    if ¬ malloc 2 (bytesFor t.numOps opBytes) then .error (.unixError "malloc 2 failed in read_trace")
    else if ¬ malloc 3 (bytesFor t.numIds wordBytes) then .error (.unixError "malloc 3 failed in read_trace")
    else if ¬ malloc 4 (bytesFor t.numIds wordBytes) then .error (.unixError "malloc 4 failed in read_trace")
    else (readRequests (capacity t.numOps opBytes) ⟨0, size, 0, []⟩ s).bind t.check

/-! ## Traces that are read -/

theorem readRequests_end (hword : scanWord s = none) : readRequests n r s = .ok r := by
  unfold readRequests
  split
  · rfl
  · rename_i hsome
    rw [hword] at hsome
    cases hsome

theorem readRequests_word {word rest : List Char} (hword : scanWord s = some (word, rest)) :
    readRequests n r s =
      if word.length ≥ maxLine then .error .outOfBounds
      else (readRequest n r (word.headD (Char.ofNat 0)) rest).bind fun p => readRequests n p.1 p.2 := by
  conv_lhs => unfold readRequests
  split
  · rename_i hnone
    rw [hword] at hnone
    cases hnone
  · rename_i word' rest' hsome
    obtain ⟨rfl, rfl⟩ := Prod.ext_iff.1 (Option.some.inj (hword.symm.trans hsome))
    dsimp only
    split_ifs
    · rfl
    · split
      · rename_i hread
        rw [hread]
        rfl
      · rename_i hread
        rw [hread]
        rfl

theorem Below.mono {m m' : UInt32} (hm : m.toNat ≤ m'.toNat) (h : Below m op) : Below m' op := by
  cases op with
  | alloc index size => exact le_trans h hm
  | realloc index size => exact le_trans h hm
  | free index => trivial

/-- **The loop.** -/
theorem readRequests_spec (h : readRequests n r s = .ok r') (hn : r.ops.length ≤ n) (hr : ∀ op ∈ r.ops, Below r.maxIndex op) :
    r'.ops.length ≤ n ∧ ∀ op ∈ r'.ops, Below r'.maxIndex op := by
  induction r, s using readRequests.induct n with
  | case1 r s hword =>
    rw [readRequests_end hword] at h
    cases h
    exact ⟨hn, hr⟩
  | case2 r s word rest hword hlong =>
    rw [readRequests_word hword, if_pos hlong] at h
    cases h
  | case3 r s word rest hword hshort e hread =>
    rw [readRequests_word hword, if_neg hshort, hread] at h
    cases h
  | case4 r s word rest hword hshort r1 s1 hread ih =>
    obtain ⟨-, hlt, hmax, op, hops, hop⟩ := readRequest_spec hread
    rw [readRequests_word hword, if_neg hshort, hread] at h
    apply ih h
    · rw [hops, List.length_append]
      exact hlt
    · rw [hops]
      exact List.forall_mem_append.2 ⟨fun op' hop' => (hr op' hop').mono hmax, List.forall_mem_singleton.2 hop⟩

structure WellFormed (t : Trace) : Prop where
  count : t.numOps.toUInt32.toNat = t.ops.length
  below : ∀ op ∈ t.ops, Below (t.numIds - 1).toUInt32 op

variable {malloc : ℕ → UInt32 → Bool} {t t' : Trace} {size : UInt32} {text : List Char}

theorem capacity_lt (n : Int32) : capacity n opBytes < 2 ^ 32 := by
  have hlt := (bytesFor n opBytes).toNat_lt
  have hbytes : opBytes.toNat = 12 := rfl
  rw [capacity, hbytes]
  omega

/-- **What is read.** -/
theorem readTrace_wellFormed (h : readTrace malloc t' size text = .ok t) : WellFormed t := by
  unfold readTrace at h
  rcases hheader : readHeader t' text with ⟨t1, s⟩
  rw [hheader] at h
  dsimp only at h
  split_ifs at h
  cases hread : readRequests (capacity t1.numOps opBytes) ⟨0, size, 0, []⟩ s with
  | error e =>
    rw [hread] at h
    cases h
  | ok r =>
    rw [hread] at h
    change t1.check r = .ok t at h
    unfold Trace.check at h
    split_ifs at h with hassert
    cases h
    obtain ⟨hmax, hcount⟩ := hassert
    obtain ⟨hle, hbelow⟩ := readRequests_spec hread (Nat.zero_le _) (fun op hop => absurd hop List.not_mem_nil)
    refine ⟨?_, ?_⟩
    · have hlt := hle.trans_lt (capacity_lt t1.numOps)
      rw [hcount, UInt32.toNat_ofNat_of_lt' hlt]
    · rw [← hmax]
      exact hbelow

/-! ## Printed traces -/

/-- `%u` of `printf`, on an `int` -/
def unsigned (i : Int32) : List Char := Nat.toDigits 10 i.toUInt32.toNat

/-- the line of a request -/
def opText : TraceOp → List Char
  | .alloc index size => 'a' :: ' ' :: (unsigned index ++ ' ' :: unsigned size)
  | .realloc index size => 'r' :: ' ' :: (unsigned index ++ ' ' :: unsigned size)
  | .free index => 'f' :: ' ' :: unsigned index

def linesText (lines : List (List Char)) : List Char := lines.flatMap fun l => l ++ ['\n']

def headerLines (t : Trace) : List (List Char) :=
  [numeral t.suggHeapsize.toInt, numeral t.numIds.toInt, numeral t.numOps.toInt, numeral t.weight.toInt]

/-- the file of a trace -/
def traceText (t : Trace) : List Char := linesText (headerLines t ++ t.ops.map opText)

/-- the variables of the loop after a request was read -/
def Reading.after (r : Reading) : TraceOp → Reading
  | .alloc i n => ⟨i.toUInt32, n.toUInt32, r.larger i.toUInt32, r.ops ++ [.alloc i n]⟩
  | .realloc i n => ⟨i.toUInt32, n.toUInt32, r.larger i.toUInt32, r.ops ++ [.realloc i n]⟩
  | .free i => ⟨i.toUInt32, r.size, r.maxIndex, r.ops ++ [.free i]⟩

variable {rest : List Char}

theorem ends_newline : Ends ('\n' :: rest) := ends_space rfl

theorem scanNumber_unsigned (i : Int32) (hs : Ends s) : scanNumber (unsigned i ++ s) = (some (false, i.toUInt32.toNat), s) :=
  scanNumber_toDigits _ hs

/-- white space before a number is skipped -/
theorem scanNumber_space {c : Char} (hc : isSpace c) : scanNumber (c :: s) = scanNumber s := by
  rw [scanNumber, scanNumber, skipSpace_space hc]

theorem readPair_text (r : Reading) (i size : Int32) :
    readPair r (' ' :: (unsigned i ++ ' ' :: (unsigned size ++ '\n' :: rest))) =
      (i.toUInt32, size.toUInt32, '\n' :: rest) := by
  rw [readPair, scanNumber_space rfl, scanNumber_unsigned _ (ends_space rfl)]
  dsimp only
  rw [scanNumber_space rfl, scanNumber_unsigned _ ends_newline, Option.elim_some, toULong_toNat, toULong_toNat]

theorem readFreed_text (r : Reading) (i : Int32) :
    readFreed r (' ' :: (unsigned i ++ '\n' :: rest)) = (i.toUInt32, '\n' :: rest) := by
  rw [readFreed, scanNumber_space rfl, scanNumber_unsigned _ ends_newline]
  exact Prod.ext (toULong_toNat _) rfl

theorem readRequests_space {c : Char} (hc : isSpace c) : readRequests n r (c :: s) = readRequests n r s := by
  have hsame : scanWord (c :: s) = scanWord s := by rw [scanWord, scanWord, skipSpace_space hc]
  cases hword : scanWord s with
  | none => rw [readRequests_end hword, readRequests_end (hsame.trans hword)]
  | some p => rw [readRequests_word hword, readRequests_word (hsame.trans hword)]

/-- the type of a request, and what stands behind it on its line -/
def opType : TraceOp → Char
  | .alloc _ _ => 'a'
  | .realloc _ _ => 'r'
  | .free _ => 'f'

theorem opText_cons (op : TraceOp) : opText op = opType op :: (opText op).tail := by cases op <;> rfl

theorem opType_word (op : TraceOp) : isSpace (opType op) = false := by cases op <;> rfl

theorem readRequest_text (op : TraceOp) : readRequest n r (opType op) ((opText op).tail ++ '\n' :: rest) =
    if r.ops.length < n then .ok (r.after op, '\n' :: rest) else .error .outOfBounds := by
  cases op with
  | alloc i size =>
    have htext : (opText (.alloc i size)).tail ++ '\n' :: rest = ' ' :: (unsigned i ++ ' ' :: (unsigned size ++ '\n' :: rest)) := by
      simp [opText]
    rw [htext, opType, readRequest, readPair_text]
    simp only [Reading.store, Int32.toInt32_toUInt32]
    split_ifs <;> rfl
  | realloc i size =>
    have htext : (opText (.realloc i size)).tail ++ '\n' :: rest = ' ' :: (unsigned i ++ ' ' :: (unsigned size ++ '\n' :: rest)) := by
      simp [opText]
    rw [htext, opType, readRequest, readPair_text]
    simp only [Reading.store, Int32.toInt32_toUInt32]
    split_ifs <;> rfl
  | free i =>
    have htext : (opText (.free i)).tail ++ '\n' :: rest = ' ' :: (unsigned i ++ '\n' :: rest) := rfl
    rw [htext, opType, readRequest, readFreed_text]
    simp only [Reading.store, Int32.toInt32_toUInt32]
    split_ifs <;> rfl

/-- **The line of a request.** -/
theorem readRequests_opText (op : TraceOp) :
    readRequests n r (opText op ++ '\n' :: rest) =
      if r.ops.length < n then readRequests n (r.after op) rest else .error .outOfBounds := by
  have hword : scanWord (opText op ++ '\n' :: rest) = some ([opType op], (opText op).tail ++ '\n' :: rest) := by
    rw [opText_cons]
    apply scanWord_cons (w := [])
    · exact List.forall_mem_singleton.2 (opType_word op)
    · cases op <;> simp [opText, isSpace]
  have hshort : ¬ [opType op].length ≥ maxLine := show ¬ 1 ≥ maxLine by decide
  rw [readRequests_word hword, if_neg hshort, List.headD_cons, readRequest_text]
  split_ifs
  · exact readRequests_space rfl
  · rfl

theorem after_ops (r : Reading) (op : TraceOp) : (r.after op).ops = r.ops ++ [op] := by cases op <;> rfl

/-- the requests are stored while there is room -/
theorem readRequests_lines (ops : List TraceOp) (hr : r.ops.length ≤ n) :
    readRequests n r (linesText (ops.map opText)) =
      if r.ops.length + ops.length ≤ n then .ok (ops.foldl Reading.after r) else .error .outOfBounds := by
  induction ops generalizing r with
  | nil =>
    rw [List.length_nil, add_zero, if_pos hr]
    exact readRequests_end rfl
  | cons op ops ih =>
    have htext : linesText ((op :: ops).map opText) = opText op ++ '\n' :: linesText (ops.map opText) := by
      simp [linesText]
    have hlength : (r.after op).ops.length = r.ops.length + 1 := by rw [after_ops, List.length_append, List.length_singleton]
    rw [htext, readRequests_opText]
    by_cases hlt : r.ops.length < n
    · rw [if_pos hlt, ih (hlength ▸ hlt), hlength, List.length_cons, List.foldl_cons, add_assoc, add_comm 1]
    · rw [if_neg hlt, if_neg (by rw [List.length_cons]; omega)]

/-- the index of an allocation -/
def allocated : TraceOp → Option ℕ
  | .alloc index _ => some index.toUInt32.toNat
  | .realloc index _ => some index.toUInt32.toNat
  | .free _ => none

/-- 0 and the indices of the allocations -/
def Indices (ops : List TraceOp) : Set ℕ := {k | k = 0 ∨ ∃ op ∈ ops, allocated op = some k}

theorem after_maxIndex (r : Reading) (op : TraceOp) :
    (r.after op).maxIndex.toNat = max r.maxIndex.toNat ((allocated op).getD 0) := by
  have hlarger : ∀ index : UInt32, (r.larger index).toNat = max r.maxIndex.toNat index.toNat := by
    intro index
    unfold Reading.larger
    split_ifs with hlt
    · exact (max_eq_right (UInt32.lt_iff_toNat_lt.1 hlt).le).symm
    · exact (max_eq_left (not_lt.1 fun h => hlt (UInt32.lt_iff_toNat_lt.2 h))).symm
  cases op with
  | alloc i size => exact hlarger i.toUInt32
  | realloc i size => exact hlarger i.toUInt32
  | free i => exact (max_eq_left (Nat.zero_le _)).symm

theorem foldl_after_ops (ops : List TraceOp) (r : Reading) : (ops.foldl Reading.after r).ops = r.ops ++ ops := by
  induction ops generalizing r with
  | nil => exact (List.append_nil _).symm
  | cons op ops ih => rw [List.foldl_cons, ih, after_ops, List.append_assoc, List.singleton_append]

theorem greatest_after {l : List TraceOp} {k : ℕ} (h : IsGreatest (Indices l) k) (op : TraceOp) :
    IsGreatest (Indices (l ++ [op])) (max k ((allocated op).getD 0)) := by
  constructor
  · rcases le_total ((allocated op).getD 0) k with hle | hle
    · rw [max_eq_left hle]
      refine h.1.imp_right ?_
      rintro ⟨op', hop', hk⟩
      exact ⟨op', List.mem_append_left _ hop', hk⟩
    · rw [max_eq_right hle]
      cases hop : allocated op with
      | none => exact .inl rfl
      | some j => exact .inr ⟨op, List.mem_append_right _ (List.mem_singleton_self op), hop⟩
  · rintro j (rfl | ⟨op', hop', hj⟩)
    · exact Nat.zero_le _
    · rcases List.mem_append.1 hop' with hmem | hmem
      · exact (h.2 (.inr ⟨op', hmem, hj⟩)).trans (le_max_left _ _)
      · rw [← List.mem_singleton.1 hmem, hj]
        exact le_max_right _ _

theorem foldl_after_max (ops : List TraceOp) (r : Reading) {l : List TraceOp} (h : IsGreatest (Indices l) r.maxIndex.toNat) :
    IsGreatest (Indices (l ++ ops)) (ops.foldl Reading.after r).maxIndex.toNat := by
  induction ops generalizing r l with
  | nil => rwa [List.append_nil]
  | cons op ops ih =>
    have hnext := greatest_after h op
    rw [← after_maxIndex] at hnext
    have hrest := ih (r.after op) hnext
    rwa [List.append_assoc, List.singleton_append] at hrest

/-! ## Round trip -/

theorem readLong_line (old v : Int32) : readLong old (numeral v.toInt ++ '\n' :: rest) = (v, '\n' :: rest) :=
  readLong_numeral old v ends_newline

theorem readLong_newline (old : Int32) : readLong old ('\n' :: s) = readLong old s := by
  rw [readLong, readLong, scanNumber_space rfl]

theorem readHeader_text (t t' : Trace) (lines : List (List Char)) :
    readHeader t' (linesText (headerLines t ++ lines)) =
      (⟨t.suggHeapsize, t.numIds, t.numOps, t.weight, []⟩, '\n' :: linesText lines) := by
  have htext : linesText (headerLines t ++ lines) = numeral t.suggHeapsize.toInt ++ '\n' :: (numeral t.numIds.toInt ++
      '\n' :: (numeral t.numOps.toInt ++ '\n' :: (numeral t.weight.toInt ++ '\n' :: linesText lines))) := by
    simp [linesText, headerLines]
  rw [htext]
  simp only [readHeader, readLong_line, readLong_newline]

/-- the numbers of the file are those of its requests -/
structure Consistent (t : Trace) : Prop where
  count : t.numOps.toUInt32.toNat = t.ops.length
  greatest : IsGreatest (Indices t.ops) (t.numIds - 1).toUInt32.toNat

/-- every call of `malloc` is granted its block -/
def Granted (malloc : ℕ → UInt32 → Bool) (t : Trace) : Prop :=
  malloc 1 28 ∧ malloc 2 (bytesFor t.numOps opBytes) ∧ malloc 3 (bytesFor t.numIds wordBytes) ∧
    malloc 4 (bytesFor t.numIds wordBytes)

/-- the assertions at the end of a printed trace -/
theorem check_iff {r : Reading} (hops : r.ops = t.ops) (hmax : IsGreatest (Indices t.ops) r.maxIndex.toNat)
    (hlength : t.ops.length < 2 ^ 32) :
    (r.maxIndex = (t.numIds - 1).toUInt32 ∧ t.numOps.toUInt32 = UInt32.ofNat r.ops.length) ↔ Consistent t := by
  have hcount : t.numOps.toUInt32 = UInt32.ofNat r.ops.length ↔ t.numOps.toUInt32.toNat = t.ops.length := by
    rw [← UInt32.toNat_inj, hops, UInt32.toNat_ofNat_of_lt' hlength]
  rw [hcount]
  constructor
  · intro h
    exact ⟨h.2, h.1 ▸ hmax⟩
  · intro h
    exact ⟨UInt32.toNat_inj.1 (hmax.unique h.greatest), h.count⟩

/-- what is left of `read_trace` on a printed trace -/
theorem readTrace_text (hgranted : Granted malloc t) : readTrace malloc t' size (traceText t) =
    if t.ops.length ≤ capacity t.numOps opBytes then
      Trace.check ⟨t.suggHeapsize, t.numIds, t.numOps, t.weight, []⟩ (t.ops.foldl Reading.after ⟨0, size, 0, []⟩)
    else .error .outOfBounds := by
  obtain ⟨hfirst, hsecond, hthird, hfourth⟩ := hgranted
  have hloop := readRequests_lines (n := capacity t.numOps opBytes) (r := ⟨0, size, 0, []⟩) t.ops (Nat.zero_le _)
  rw [readTrace, if_neg (not_not.2 hfirst), traceText, readHeader_text]
  dsimp only
  rw [if_neg (not_not.2 hsecond), if_neg (not_not.2 hthird), if_neg (not_not.2 hfourth), readRequests_space rfl, hloop,
    List.length_nil, zero_add]
  split_ifs
  · rfl
  · rfl

theorem check_text (hle : t.ops.length ≤ capacity t.numOps opBytes) :
    (Consistent t → Trace.check ⟨t.suggHeapsize, t.numIds, t.numOps, t.weight, []⟩
      (t.ops.foldl Reading.after ⟨0, size, 0, []⟩) = .ok t) ∧
    (¬ Consistent t → Trace.check ⟨t.suggHeapsize, t.numIds, t.numOps, t.weight, []⟩
      (t.ops.foldl Reading.after ⟨0, size, 0, []⟩) = .error .assertion) := by
  have hops : (t.ops.foldl Reading.after ⟨0, size, 0, []⟩).ops = t.ops := foldl_after_ops t.ops _
  have hzero : IsGreatest (Indices []) 0 := by
    refine ⟨.inl rfl, ?_⟩
    rintro k (rfl | ⟨op, hop, -⟩)
    · exact le_rfl
    · exact absurd hop List.not_mem_nil
  have hmax := foldl_after_max t.ops ⟨0, size, 0, []⟩ hzero
  have hiff := check_iff hops hmax (hle.trans_lt (capacity_lt t.numOps))
  constructor
  · intro hc
    rw [Trace.check, if_pos (hiff.2 hc), hops]
  · intro hc
    rw [Trace.check, if_neg fun h => hc (hiff.1 h)]

/-- **A printed trace.** When `malloc` grants the blocks, a trace in its printed form is read back exactly when the
numbers of its header are those of its requests. With more requests than the header says they are stored outside of
the array, which is sooner than the assertion on their count. -/
theorem readTrace_traceText (hgranted : Granted malloc t) :
    (t.ops.length ≤ capacity t.numOps opBytes → Consistent t → readTrace malloc t' size (traceText t) = .ok t) ∧
      (t.ops.length ≤ capacity t.numOps opBytes → ¬ Consistent t →
        readTrace malloc t' size (traceText t) = .error .assertion) ∧
      (capacity t.numOps opBytes < t.ops.length → readTrace malloc t' size (traceText t) = .error .outOfBounds) := by
  refine ⟨?_, ?_, ?_⟩
  · intro hle hc
    rw [readTrace_text hgranted, if_pos hle, (check_text hle).1 hc]
  · intro hle hc
    rw [readTrace_text hgranted, if_pos hle, (check_text hle).2 hc]
  · intro hlt
    rw [readTrace_text hgranted, if_neg (not_le.2 hlt)]

/-- two blocks, of which the first one is freed, with a header -/
def smallTrace : Trace := ⟨20000, 2, 3, 1, twoBlocks⟩

theorem smallTrace_consistent : Consistent smallTrace := by
  refine ⟨by decide, .inr ⟨.alloc 1 8, by decide, by decide⟩, ?_⟩
  rintro k (rfl | ⟨op, hop, hk⟩)
  · exact Nat.zero_le _
  · have hall : ∀ op ∈ twoBlocks, ∀ k ∈ allocated op, k ≤ 1 := by decide
    exact hall op hop k hk

/-- the small trace is read back; with a count of 2 its third request is stored outside of the array -/
theorem readTrace_traceText_example :
    readTrace (fun _ _ => true) ⟨0, 0, 0, 0, []⟩ 0 (traceText smallTrace) = .ok smallTrace ∧
      readTrace (fun _ _ => true) ⟨0, 0, 0, 0, []⟩ 0 (traceText { smallTrace with numOps := 2 }) = .error .outOfBounds :=
  ⟨(readTrace_traceText ⟨rfl, rfl, rfl, rfl⟩).1 (by decide) smallTrace_consistent,
    (readTrace_traceText ⟨rfl, rfl, rfl, rfl⟩).2.2 (by decide)⟩

end DecsLabs.Malloc
