/-
This file proves that the head parser's answer does not depend on how the head was cut into
reads. Each part of the parser changes no answer but `incomplete` when more bytes arrive, so
each is incremental; the request-line limit and the head limit, which are measured on the
received bytes while the part is incomplete and on the parsed bytes once it is not, cost only
the reason of a rejection.
-/

import ZeroServer.Http1.Head

namespace ZeroServer.Http1

open Lib

/-! ### Reading bytes of a longer input -/

variable {input : Bytes} {pos : Nat} {limits : Http1Limits} {version : Version} {table : List Field}
  {fields : FieldSection}

variable {at_ : Nat} {allowed : UInt8 → Bool}

theorem byte_append (inside : at_ < input.length) (rest : Bytes) :
    byte (input ++ rest) at_ = byte input at_ :=
  List.getElem?_append_left inside

theorem byte_eq_none : byte input at_ = none ↔ input.length ≤ at_ :=
  List.getElem?_eq_none_iff

theorem tail_append {from_ : Nat} (inside : from_ ≤ input.length) (rest : Bytes) :
    tail (input ++ rest) from_ = tail input from_ ++ rest :=
  List.drop_append_of_le_length inside

theorem length_tail (input : Bytes) (from_ : Nat) :
    (tail input from_).length = input.length - from_ :=
  List.length_drop

theorem lt_of_expectCrlf (answered : expectCrlf input at_ ≠ .incomplete) : at_ < input.length := by
  by_contra outside
  apply answered
  unfold expectCrlf
  rw [byte_eq_none.mpr (Nat.le_of_not_lt outside)]

theorem expectCrlf_append (answered : expectCrlf input at_ ≠ .incomplete) (rest : Bytes) :
    expectCrlf (input ++ rest) at_ = expectCrlf input at_ := by
  have first := lt_of_expectCrlf answered
  unfold expectCrlf at answered ⊢
  rw [byte_append first]
  rcases found : byte input at_ with - | head
  · rfl
  · simp only [found] at answered
    by_cases isCr : head = cr
    · simp only [if_pos isCr] at answered ⊢
      rcases next : byte input (at_ + 1) with - | second
      · rw [next] at answered
        exact absurd rfl answered
      · rw [byte_append (byte_lt next), next]
    · simp only [if_neg isCr]

/-- A scan at an offset that stops inside the input does not see what is appended. -/
theorem scan_tail_append (inside : pos + scan (tail input pos) allowed < input.length)
    (rest : Bytes) : scan (tail (input ++ rest) pos) allowed = scan (tail input pos) allowed := by
  rw [tail_append (by omega), scan_append_of_lt]
  rw [length_tail]
  omega

theorem scan_tail_le (input rest : Bytes) (pos : Nat) :
    scan (tail input pos) allowed ≤ scan (tail (input ++ rest) pos) allowed := by
  rcases Nat.lt_or_ge input.length pos with outside | inside
  · have empty : tail input pos = [] := List.drop_eq_nil_of_le (Nat.le_of_lt outside)
    rw [empty]
    exact Nat.zero_le _
  · rw [tail_append inside]
    exact scan_append_ge _ _

/-- A name that ends inside the bytes read so far is the same when more of them have come. -/
theorem headerName_append (within : scanHeaderName (tail input pos) ≠ (tail input pos).length)
    (rest : Bytes) :
    pos + scanHeaderName (tail input pos) < input.length ∧
      scanHeaderName (tail (input ++ rest) pos) = scanHeaderName (tail input pos) ∧
        scanHeaderName (tail input pos) ≠ (tail (input ++ rest) pos).length := by
  have inside : pos + scanHeaderName (tail input pos) < input.length := by
    have bound : scanHeaderName (tail input pos) ≤ (tail input pos).length := scan_le_length _
    rw [length_tail] at within bound
    omega
  refine ⟨inside, scan_tail_append inside rest, ?_⟩
  rw [length_tail, List.length_append]
  omega

/-! ### The empty lines and the method -/

variable {token : Span}

theorem skipEmptyLines_complete {start : Nat}
    (complete : skipEmptyLines limits input pos = .complete start) :
    start < input.length ∧ tail input start ≠ [cr] ∧ ¬ crlf <+: tail input start := by
  fun_induction skipEmptyLines limits input pos with
  | case1 => cases complete
  | case2 pos starts short inductionHypothesis => exact inductionHypothesis complete
  | case3 => cases complete
  | case4 pos starts stays =>
    rw [Verdict.complete.injEq] at complete
    subst complete
    exact ⟨by omega, by tauto, starts⟩

theorem skipEmptyLines_append (answered : skipEmptyLines limits input pos ≠ .incomplete)
    (rest : Bytes) :
    skipEmptyLines limits (input ++ rest) pos = skipEmptyLines limits input pos := by
  fun_induction skipEmptyLines limits input pos with
  | case1 pos starts long =>
    have inside := starts.length_le
    rw [length_tail] at inside
    rw [skipEmptyLines, if_pos (by
      rw [tail_append (by simp only [crlf, List.length_cons] at inside; omega)]
      exact starts.trans (List.prefix_append _ _)), if_pos long]
  | case2 pos starts short inductionHypothesis =>
    have inside := starts.length_le
    rw [length_tail] at inside
    rw [skipEmptyLines, if_pos (by
      rw [tail_append (by simp only [crlf, List.length_cons] at inside; omega)]
      exact starts.trans (List.prefix_append _ _)), if_neg short, inductionHypothesis answered]
  | case3 => exact absurd rfl answered
  | case4 pos starts stays =>
    have inside : pos < input.length := by omega
    obtain ⟨first, remains, split⟩ : ∃ first remains, tail input pos = first :: remains := by
      rcases shape : tail input pos with - | ⟨first, remains⟩
      · have length := length_tail input pos
        rw [shape, List.length_nil] at length
        omega
      · exact ⟨first, remains, rfl⟩
    have same : ¬ crlf <+: tail (input ++ rest) pos := by
      rw [tail_append (Nat.le_of_lt inside), split]
      rw [split] at starts stays
      rcases remains with - | ⟨second, remains⟩
      · simp only [crlf, List.cons_append, List.nil_append, List.cons_prefix_cons]
        rintro ⟨rfl, -⟩
        exact stays (Or.inr rfl)
      · simpa [crlf] using starts
    rw [skipEmptyLines, if_neg same, if_neg]
    rw [tail_append (Nat.le_of_lt inside), List.length_append, split]
    rw [split] at stays
    rintro (outside | lone)
    · omega
    · apply stays
      right
      rcases remains with - | ⟨second, remains⟩
      · simp only [List.cons_append, List.nil_append, List.cons.injEq] at lone
        rw [lone.1]
      · simp at lone

theorem methodToken_eq_complete :
    methodToken input pos = .complete token ↔
      scanHeaderName (tail input pos) ≤ longestMethod ∧ 0 < scanHeaderName (tail input pos) ∧
        byte input (pos + scanHeaderName (tail input pos)) = some sp ∧
        token = ⟨pos, pos + scanHeaderName (tail input pos)⟩ := by
  unfold methodToken
  dsimp only
  constructor
  · intro complete
    split at complete
    · cases complete
    · split at complete
      · cases complete
      · split at complete
        · cases complete
        · split at complete
          · cases complete
          · rename_i short _ some_ space
            rw [Verdict.complete.injEq] at complete
            exact ⟨Nat.le_of_not_lt short, Nat.pos_of_ne_zero some_, not_not.mp space,
              complete.symm⟩
  · rintro ⟨short, some_, space, rfl⟩
    have inside := byte_lt space
    rw [if_neg (Nat.not_lt.mpr short), if_neg (by rw [length_tail]; omega), if_neg (by omega),
      if_neg (not_not.mpr space)]

theorem methodToken_append (answered : methodToken input pos ≠ .incomplete) (rest : Bytes) :
    methodToken (input ++ rest) pos = methodToken input pos := by
  unfold methodToken at answered ⊢
  dsimp only at answered ⊢
  by_cases long : scanHeaderName (tail input pos) > longestMethod
  · have longer : scanHeaderName (tail (input ++ rest) pos) > longestMethod :=
      Nat.lt_of_lt_of_le long (scan_tail_le input rest pos)
    rw [if_pos long, if_pos longer]
  · rw [if_neg long] at answered
    have within : scanHeaderName (tail input pos) ≠ (tail input pos).length := by
      intro whole
      rw [if_pos whole] at answered
      exact answered rfl
    obtain ⟨inside, same, still⟩ := headerName_append within rest
    rw [same, if_neg long, if_neg long, if_neg within, byte_append inside, if_neg still]

/-! ### The rest of the request line -/

variable {rest : Bytes}

theorem lineRest_eq_complete {line : LineRest} :
    lineRest input pos = .complete line ↔
      ∃ targetLen, targetLen = scanTarget (tail input pos) ∧ 0 < targetLen ∧
        byte input (pos + targetLen) = some sp ∧
        pos + targetLen + 1 + versionLen ≤ input.length ∧
        parseVersion ((tail input (pos + targetLen + 1)).take versionLen) = .ok line.version ∧
        expectCrlf input (pos + targetLen + 1 + versionLen) = .found ∧
        line.target = ⟨pos, pos + targetLen⟩ ∧
        line.stop = pos + targetLen + 1 + versionLen + 2 := by
  unfold lineRest
  dsimp only
  constructor
  · intro complete
    split at complete
    · cases complete
    split at complete
    · cases complete
    split at complete
    · cases complete
    split at complete
    · cases complete
    split at complete
    · cases complete
    split at complete
    · rename_i _ some_ space long _ version parsed _ found
      rw [Verdict.complete.injEq] at complete
      subst complete
      exact ⟨_, rfl, Nat.pos_of_ne_zero some_, not_not.mp space, Nat.le_of_not_lt long, parsed,
        found, rfl, rfl⟩
    · cases complete
    · cases complete
  · rintro ⟨_, rfl, some_, space, long, parsed, found, target, stop⟩
    have inside := byte_lt space
    rw [if_neg (by rw [length_tail]; omega), if_neg (by omega), if_neg (not_not.mpr space),
      if_neg (Nat.not_lt.mpr long), parsed, found]
    obtain ⟨_, _, _⟩ := line
    simp only at target stop
    rw [target, stop]

theorem lineRest_append (answered : lineRest input pos ≠ .incomplete) (rest : Bytes) :
    lineRest (input ++ rest) pos = lineRest input pos := by
  unfold lineRest at answered ⊢
  dsimp only at answered ⊢
  have within : scanTarget (tail input pos) ≠ (tail input pos).length := by
    intro whole
    rw [if_pos whole] at answered
    exact answered rfl
  have inside : pos + scanTarget (tail input pos) < input.length := by
    have bound : scanTarget (tail input pos) ≤ (tail input pos).length := scan_le_length _
    rw [length_tail] at within bound
    omega
  have same : scanTarget (tail (input ++ rest) pos) = scanTarget (tail input pos) :=
    scan_tail_append inside rest
  rw [if_neg within] at answered
  rw [same, if_neg within, byte_append inside, if_neg (by
    rw [length_tail, List.length_append]
    omega)]
  by_cases empty : scanTarget (tail input pos) = 0
  · rw [if_pos empty, if_pos empty]
  rw [if_neg empty] at answered
  rw [if_neg empty, if_neg empty]
  by_cases space : byte input (pos + scanTarget (tail input pos)) = some sp
  · rw [if_neg (not_not.mpr space)] at answered
    rw [if_neg (not_not.mpr space), if_neg (not_not.mpr space)]
    have long : ¬ input.length < pos + scanTarget (tail input pos) + 1 + versionLen := by
      intro short
      rw [if_pos short] at answered
      exact answered rfl
    rw [if_neg long] at answered
    rw [if_neg long, if_neg (by rw [List.length_append]; omega),
      tail_append (by unfold versionLen at long; omega),
      List.take_append_of_le_length (by rw [length_tail]; omega)]
    rcases parsed : parseVersion ((tail input (pos + scanTarget (tail input pos) + 1)).take
      versionLen) with reject | version
    · rfl
    · rw [parsed] at answered
      dsimp only at answered ⊢
      have ended : expectCrlf input (pos + scanTarget (tail input pos) + 1 + versionLen) ≠
          .incomplete := by
        intro open_
        rw [open_] at answered
        exact answered rfl
      rw [expectCrlf_append ended]
  · rw [if_pos space, if_pos space]

theorem lineRest_late {line : LineRest} (open_ : lineRest input pos = .incomplete)
    (complete : lineRest (input ++ rest) pos = .complete line) : input.length < line.stop := by
  obtain ⟨targetLen, scanned, some_, space, long, parsed, found, target, stop⟩ :=
    lineRest_eq_complete.mp complete
  by_contra inside
  have ends : pos + targetLen + 1 + versionLen + 2 ≤ input.length := by omega
  have starts : pos ≤ input.length := by omega
  have here : scanTarget (tail input pos) = targetLen := by
    have le : scanTarget (tail input pos) ≤ targetLen := by
      rw [scanned]
      exact scan_tail_le input rest pos
    rw [scanned]
    exact (scan_tail_append (by unfold scanTarget at le; omega) rest).symm
  have again : lineRest input pos = .complete line := by
    refine lineRest_eq_complete.mpr
      ⟨targetLen, here.symm, some_, ?_, by omega, ?_, ?_, target, stop⟩
    · rwa [byte_append (by omega)] at space
    · rwa [tail_append (by omega),
        List.take_append_of_le_length (by rw [length_tail]; omega)] at parsed
    · rw [expectCrlf_found] at found ⊢
      rwa [byte_append (by omega), byte_append (by omega)] at found
  rw [open_] at again
  cases again

theorem lineRest_incremental (pos : Nat) :
    Incremental (fun input => lineRest input pos) LineRest.stop := by
  refine Incremental.of_persist ?_ (fun input rest answered => lineRest_append answered rest)
    fun input rest line open_ complete => lineRest_late open_ complete
  intro input line complete
  obtain ⟨targetLen, -, -, -, -, -, found, -, stop⟩ := lineRest_eq_complete.mp complete
  rw [stop]
  exact expectCrlf_found_le found

/-! ### One field line -/

variable {line : FieldLine}

theorem tail_getElem? (input : Bytes) (pos index : Nat) :
    (tail input pos)[index]? = byte input (pos + index) :=
  List.getElem?_drop

/-- A scan that takes a byte starts with an allowed one. -/
theorem scan_tail_pos (some_ : 0 < scan (tail input pos) allowed) :
    ∃ first, (tail input pos)[0]? = some first ∧ allowed first = true := by
  rcases shape : tail input pos with - | ⟨first, remains⟩
  · rw [shape] at some_
    exact absurd some_ (Nat.lt_irrefl 0)
  · refine ⟨first, rfl, ?_⟩
    by_contra refused
    rw [shape] at some_
    simp [scan, List.findIdx_cons, refused] at some_

theorem fieldLine_eq_none :
    fieldLine input pos = .complete none ↔ byte input pos = some cr ∧ byte input (pos + 1) = some lf := by
  unfold fieldLine
  dsimp only
  rw [tail_getElem?, tail_getElem?, Nat.add_zero]
  rcases byte input pos with - | first
  · simp
  · dsimp only
    by_cases isCr : first = cr
    · rw [if_pos isCr]
      rcases byte input (pos + 1) with - | second
      · simp
      · by_cases isLf : second = lf <;> simp [isCr, isLf]
    · rw [if_neg isCr]
      simp only [Option.some.injEq, isCr, false_and, iff_false]
      split
      · simp
      · split
        · simp
        · split
          · simp
          · split
            · simp
            · split <;> simp

theorem fieldLine_eq_some :
    fieldLine input pos = .complete (some line) ↔
      ∃ nameLen valueStart valueLimit, nameLen = scanHeaderName (tail input pos) ∧
        valueStart = skipOws input (pos + nameLen + 1) ∧
        valueLimit = valueStart + scanHeaderValue (tail input valueStart) ∧ 0 < nameLen ∧
        byte input (pos + nameLen) = some colon ∧ expectCrlf input valueLimit = .found ∧
        line = ⟨⟨pos, pos + nameLen⟩, ⟨valueStart, trimValueEnd input valueStart valueLimit⟩,
          valueLimit + 2⟩ := by
  unfold fieldLine
  dsimp only
  constructor
  · intro complete
    split at complete
    · cases complete
    split at complete
    · split at complete
      · cases complete
      · split at complete <;> cases complete
    split at complete
    · cases complete
    split at complete
    · cases complete
    split at complete
    · cases complete
    split at complete
    · cases complete
    split at complete
    · rename_i some_ colon_ _ found
      rw [Verdict.complete.injEq, Option.some.injEq] at complete
      exact ⟨_, _, _, rfl, rfl, rfl, Nat.pos_of_ne_zero some_, not_not.mp colon_, found,
        complete.symm⟩
    · cases complete
    · cases complete
  · rintro ⟨_, _, _, rfl, rfl, rfl, some_, colon_, found, rfl⟩
    obtain ⟨first, starts, isName⟩ := scan_tail_pos some_
    have inside := byte_lt colon_
    have notCr : first ≠ cr := by
      rintro rfl
      exact absurd isName (by decide)
    have notBlank : ¬ (first = lf ∨ first = sp ∨ first = htab) := by
      rintro (rfl | rfl | rfl) <;> exact absurd isName (by decide)
    rw [starts]
    dsimp only
    rw [if_neg notCr, if_neg notBlank, if_neg (by rw [length_tail]; omega), if_neg (by omega),
      if_neg (not_not.mpr colon_), found]

/-- Where a field line ends: behind the empty line, or behind the line. -/
def fieldLineStop (pos : Nat) : Option FieldLine → Nat
  | none => pos + 2
  | some line => line.stop

theorem skipOws_append (inside : skipOws input pos < input.length) (rest : Bytes) :
    skipOws (input ++ rest) pos = skipOws input pos := by
  unfold skipOws at inside ⊢
  rw [scan_tail_append inside]

theorem trimValueEnd_append {valueStart valueEnd : Nat} (inside : valueEnd ≤ input.length)
    (rest : Bytes) :
    trimValueEnd (input ++ rest) valueStart valueEnd = trimValueEnd input valueStart valueEnd := by
  induction valueEnd with
  | zero => rfl
  | succ valueEnd inductionHypothesis =>
    unfold trimValueEnd
    rw [byte_append (by omega), inductionHypothesis (by omega)]

theorem le_skipOws (input : Bytes) (pos : Nat) : pos ≤ skipOws input pos := Nat.le_add_right _ _

theorem fieldLine_append (answered : fieldLine input pos ≠ .incomplete) (rest : Bytes) :
    fieldLine (input ++ rest) pos = fieldLine input pos := by
  unfold fieldLine at answered ⊢
  dsimp only at answered ⊢
  simp only [tail_getElem?, Nat.add_zero] at answered ⊢
  rcases starts : byte input pos with - | first
  · rw [starts] at answered
    exact absurd rfl answered
  rw [starts] at answered
  rw [byte_append (byte_lt starts), starts]
  dsimp only at answered ⊢
  by_cases isCr : first = cr
  · rw [if_pos isCr] at answered
    rw [if_pos isCr, if_pos isCr]
    rcases next : byte input (pos + 1) with - | second
    · rw [next] at answered
      exact absurd rfl answered
    · rw [byte_append (byte_lt next), next]
  rw [if_neg isCr] at answered
  rw [if_neg isCr, if_neg isCr]
  by_cases blank : first = lf ∨ first = sp ∨ first = htab
  · rw [if_pos blank, if_pos blank]
  rw [if_neg blank] at answered
  rw [if_neg blank, if_neg blank]
  have within : scanHeaderName (tail input pos) ≠ (tail input pos).length := by
    intro whole
    rw [if_pos whole] at answered
    exact answered rfl
  obtain ⟨inside, same, still⟩ := headerName_append within rest
  rw [if_neg within] at answered
  rw [same, if_neg within, byte_append inside, if_neg still]
  by_cases empty : scanHeaderName (tail input pos) = 0
  · rw [if_pos empty, if_pos empty]
  rw [if_neg empty] at answered
  rw [if_neg empty, if_neg empty]
  by_cases colon_ : byte input (pos + scanHeaderName (tail input pos)) = some colon
  · rw [if_neg (not_not.mpr colon_)] at answered
    rw [if_neg (not_not.mpr colon_), if_neg (not_not.mpr colon_)]
    have ended : expectCrlf input (skipOws input (pos + scanHeaderName (tail input pos) + 1) +
        scanHeaderValue (tail input (skipOws input (pos + scanHeaderName (tail input pos) + 1)))) ≠
        .incomplete := by
      intro open_
      rw [open_] at answered
      exact answered rfl
    have limit := lt_of_expectCrlf ended
    have start : skipOws input (pos + scanHeaderName (tail input pos) + 1) < input.length :=
      Nat.lt_of_le_of_lt (Nat.le_add_right _ _) limit
    have value : scanHeaderValue (tail (input ++ rest)
        (skipOws input (pos + scanHeaderName (tail input pos) + 1))) =
        scanHeaderValue (tail input (skipOws input (pos + scanHeaderName (tail input pos) + 1))) :=
      scan_tail_append limit rest
    rw [skipOws_append start, value, expectCrlf_append ended,
      trimValueEnd_append (Nat.le_of_lt limit)]
  · rw [if_pos colon_, if_pos colon_]

theorem fieldLine_late {step : Option FieldLine} (open_ : fieldLine input pos = .incomplete)
    (complete : fieldLine (input ++ rest) pos = .complete step) :
    input.length < fieldLineStop pos step := by
  by_contra inside
  have again : fieldLine input pos = .complete step := by
    rcases step with - | line
    · have ends : pos + 2 ≤ input.length := Nat.le_of_not_lt inside
      rw [fieldLine_eq_none] at complete ⊢
      rwa [byte_append (by omega), byte_append (by omega)] at complete
    · obtain ⟨nameLen, valueStart, valueLimit, named, started, limited, some_, colon_, found, rfl⟩ :=
        fieldLine_eq_some.mp complete
      have ends : valueLimit + 2 ≤ input.length := Nat.le_of_not_lt inside
      have colonInside : pos + nameLen < input.length := by
        have behind := le_skipOws (input ++ rest) (pos + nameLen + 1)
        omega
      have name : scanHeaderName (tail input pos) = nameLen := by
        have le : scanHeaderName (tail input pos) ≤ nameLen := by
          rw [named]
          exact scan_tail_le input rest pos
        rw [named]
        exact (scan_tail_append (by unfold scanHeaderName at le; omega) rest).symm
      have start : skipOws input (pos + nameLen + 1) = valueStart := by
        have le : scan (tail input (pos + nameLen + 1)) isOws ≤
            scan (tail (input ++ rest) (pos + nameLen + 1)) isOws := scan_tail_le input rest _
        rw [started]
        refine (skipOws_append ?_ rest).symm
        unfold skipOws at started ⊢
        omega
      have limit : valueStart + scanHeaderValue (tail input valueStart) = valueLimit := by
        have le : scanHeaderValue (tail input valueStart) ≤
            scanHeaderValue (tail (input ++ rest) valueStart) := scan_tail_le input rest _
        rw [limited]
        refine congrArg (valueStart + ·) (scan_tail_append ?_ rest).symm
        unfold scanHeaderValue at le limited
        omega
      refine fieldLine_eq_some.mpr ⟨nameLen, valueStart, valueLimit, name.symm, start.symm,
        limit.symm, some_, ?_, ?_, ?_⟩
      · rwa [byte_append colonInside] at colon_
      · rw [expectCrlf_found] at found ⊢
        rwa [byte_append (by omega), byte_append (by omega)] at found
      · rw [trimValueEnd_append (by omega)]
  rw [open_] at again
  cases again

/-! ### The field loop -/

section FieldLoop

variable {limits : Http1Limits} {version : Version} {input : Bytes} {pos fieldCount : Nat}
  {seen : Interpreted} {table : List Field}

theorem fieldLoop_of_incomplete (step : fieldLine input pos = .incomplete) :
    fieldLoop limits version input pos fieldCount seen table = (table, .incomplete) := by
  unfold fieldLoop
  split <;> simp_all

theorem fieldLoop_of_reject {reject : Reject} (step : fieldLine input pos = .reject reject) :
    fieldLoop limits version input pos fieldCount seen table = (table, .reject reject) := by
  unfold fieldLoop
  split <;> simp_all

theorem fieldLoop_of_none (step : fieldLine input pos = .complete none) :
    fieldLoop limits version input pos fieldCount seen table =
      (table, .complete ⟨pos + 2, fieldCount, seen, table⟩) := by
  unfold fieldLoop
  split <;> simp_all

/-- Whether one more field line of this length fits the limits and the table. -/
def FieldFits (limits : Http1Limits) (table : List Field) (fieldCount length : Nat) : Prop :=
  length ≤ limits.maxHeaderField ∧ fieldCount < limits.maxHeaderCount ∧ fieldCount < table.length

/-- The table entry of a field line. -/
def FieldLine.entry (line : FieldLine) (input : Bytes) : Field :=
  ⟨line.name, line.value, HeaderName.parse (line.name.of input)⟩

theorem fieldLoop_of_some (step : fieldLine input pos = .complete (some line))
    (fits : FieldFits limits table fieldCount (line.stop - pos)) :
    fieldLoop limits version input pos fieldCount seen table =
      fieldLoop limits version input line.stop (fieldCount + 1)
        (interpret input version seen (line.entry input).id (line.entry input).value)
        (table.set fieldCount (line.entry input)) := by
  obtain ⟨short, few, room⟩ := fits
  conv_lhs => unfold fieldLoop
  split
  · simp_all
  · simp_all
  · simp_all
  · rename_i found other
    rw [step, Verdict.complete.injEq, Option.some.injEq] at other
    subst other
    rw [if_neg (by omega), if_neg (by omega), if_neg (by omega)]
    rfl

theorem fieldLoop_of_not_fits (step : fieldLine input pos = .complete (some line))
    (overflows : ¬ FieldFits limits table fieldCount (line.stop - pos)) :
    fieldLoop limits version input pos fieldCount seen table =
      (table, .reject .headerFieldsTooLarge) := by
  unfold fieldLoop
  split
  · simp_all
  · simp_all
  · simp_all
  · rename_i found other
    rw [step, Verdict.complete.injEq, Option.some.injEq] at other
    subst other
    unfold FieldFits at overflows
    split
    · rfl
    · split
      · rfl
      · split
        · rfl
        · omega

end FieldLoop

/-- The induction the field loop recurses by, over what one field line can be. -/
@[elab_as_elim]
theorem fieldLoop_induction (limits : Http1Limits) (version : Version) (input : Bytes)
    {motive : Nat → Nat → Interpreted → List Field → Prop}
    (incomplete : ∀ pos fieldCount seen table, fieldLine input pos = .incomplete →
      motive pos fieldCount seen table)
    (reject : ∀ pos fieldCount seen table reason, fieldLine input pos = .reject reason →
      motive pos fieldCount seen table)
    (ended : ∀ pos fieldCount seen table, fieldLine input pos = .complete none →
      motive pos fieldCount seen table)
    (overflows : ∀ pos fieldCount seen table line, fieldLine input pos = .complete (some line) →
      ¬ FieldFits limits table fieldCount (line.stop - pos) → motive pos fieldCount seen table)
    (more : ∀ pos fieldCount seen table line, fieldLine input pos = .complete (some line) →
      FieldFits limits table fieldCount (line.stop - pos) →
      motive line.stop (fieldCount + 1)
        (interpret input version seen (line.entry input).id (line.entry input).value)
        (table.set fieldCount (line.entry input)) →
      motive pos fieldCount seen table) (pos fieldCount : Nat) (seen : Interpreted)
    (table : List Field) : motive pos fieldCount seen table := by
  induction left : input.length - pos using Nat.strongRecOn generalizing pos fieldCount seen table with
  | ind left inductionHypothesis =>
    rcases step : fieldLine input pos with (- | line) | - | reason
    · exact ended pos fieldCount seen table step
    · by_cases fits : FieldFits limits table fieldCount (line.stop - pos)
      · have progress := fieldLine_lt step
        exact more pos fieldCount seen table line step fits
          (inductionHypothesis (input.length - line.stop) (by omega) _ _ _ _ rfl)
      · exact overflows pos fieldCount seen table line step fits
    · exact incomplete pos fieldCount seen table step
    · exact reject pos fieldCount seen table reason step

variable {fieldCount : Nat} {seen : Interpreted}

/-- The induction over the field lines of a section that was read. -/
@[elab_as_elim]
theorem fieldLoop_read {motive : Nat → Nat → Interpreted → List Field → Prop}
    (ended : ∀ pos fieldCount seen table, fieldLine input pos = .complete none →
      ⟨pos + 2, fieldCount, seen, table⟩ = fields → motive pos fieldCount seen table)
    (more : ∀ pos fieldCount seen table line, fieldLine input pos = .complete (some line) →
      FieldFits limits table fieldCount (line.stop - pos) →
      motive line.stop (fieldCount + 1)
        (interpret input version seen (line.entry input).id (line.entry input).value)
        (table.set fieldCount (line.entry input)) →
      motive pos fieldCount seen table) :
    (fieldLoop limits version input pos fieldCount seen table).2 = .complete fields →
      motive pos fieldCount seen table := by
  induction pos, fieldCount, seen, table using fieldLoop_induction limits version input with
  | incomplete pos fieldCount seen table step =>
    intro complete
    rw [fieldLoop_of_incomplete step] at complete
    cases complete
  | reject pos fieldCount seen table reason step =>
    intro complete
    rw [fieldLoop_of_reject step] at complete
    cases complete
  | ended pos fieldCount seen table step =>
    intro complete
    rw [fieldLoop_of_none step] at complete
    exact ended pos fieldCount seen table step (Verdict.complete.inj complete)
  | overflows pos fieldCount seen table line step overflows =>
    intro complete
    rw [fieldLoop_of_not_fits step overflows] at complete
    cases complete
  | more pos fieldCount seen table line step fits inductionHypothesis =>
    intro complete
    rw [fieldLoop_of_some step fits] at complete
    exact more pos fieldCount seen table line step fits (inductionHypothesis complete)

theorem trimValueEnd_le (input : Bytes) (valueStart valueEnd : Nat) :
    trimValueEnd input valueStart valueEnd ≤ valueEnd := by
  induction valueEnd with
  | zero => exact Nat.le_refl 0
  | succ valueEnd inductionHypothesis =>
    unfold trimValueEnd
    split <;> omega

/-- The spans of a field line end inside the line. -/
theorem fieldLine_spans (complete : fieldLine input pos = .complete (some line)) :
    line.name.stop ≤ line.stop ∧ line.value.stop ≤ line.stop := by
  obtain ⟨nameLen, valueStart, valueLimit, -, started, limited, -, -, -, rfl⟩ :=
    fieldLine_eq_some.mp complete
  have behind := le_skipOws input (pos + nameLen + 1)
  have trimmed := trimValueEnd_le input valueStart valueLimit
  exact ⟨by dsimp only; omega, by dsimp only; omega⟩

theorem interpret_append {id : Option HeaderName} {value : Span}
    (inside : value.stop ≤ input.length) (rest : Bytes) :
    interpret (input ++ rest) version seen id value = interpret input version seen id value := by
  unfold interpret
  rw [Span.of_append inside]

theorem entry_append (inside : line.name.stop ≤ input.length) (rest : Bytes) :
    line.entry (input ++ rest) = line.entry input := by
  unfold FieldLine.entry
  rw [Span.of_append inside]

theorem fieldLoop_append (rest : Bytes) :
    (fieldLoop limits version input pos fieldCount seen table).2 ≠ .incomplete →
      fieldLoop limits version (input ++ rest) pos fieldCount seen table =
        fieldLoop limits version input pos fieldCount seen table := by
  induction pos, fieldCount, seen, table using fieldLoop_induction limits version input with
  | incomplete pos fieldCount seen table step =>
    intro answered
    rw [fieldLoop_of_incomplete step] at answered
    exact absurd rfl answered
  | reject pos fieldCount seen table reason step =>
    intro _
    rw [fieldLoop_of_reject step,
      fieldLoop_of_reject ((fieldLine_append (by simp [step]) rest).trans step)]
  | ended pos fieldCount seen table step =>
    intro _
    rw [fieldLoop_of_none step,
      fieldLoop_of_none ((fieldLine_append (by simp [step]) rest).trans step)]
  | overflows pos fieldCount seen table line step overflows =>
    intro _
    rw [fieldLoop_of_not_fits step overflows,
      fieldLoop_of_not_fits ((fieldLine_append (by simp [step]) rest).trans step) overflows]
  | more pos fieldCount seen table line step fits inductionHypothesis =>
    intro answered
    have inside := (fieldLine_lt step).2
    have spans := fieldLine_spans step
    rw [fieldLoop_of_some step fits] at answered
    rw [fieldLoop_of_some step fits,
      fieldLoop_of_some ((fieldLine_append (by simp [step]) rest).trans step) fits,
      entry_append (by omega), interpret_append (by exact Nat.le_trans spans.2 inside),
      inductionHypothesis answered]

theorem fieldLoop_lt
    (complete : (fieldLoop limits version input pos fieldCount seen table).2 = .complete fields) :
    pos < fields.stop ∧ fields.stop ≤ input.length := by
  refine fieldLoop_read (fun pos fieldCount seen table step last => ?ended)
    (fun pos fieldCount seen table line step fits inductionHypothesis => ?more) complete
  case ended =>
    subst last
    have second := byte_lt (fieldLine_eq_none.mp step).2
    exact ⟨by dsimp only; omega, second⟩
  case more =>
    exact ⟨Nat.lt_trans (fieldLine_lt step).1 inductionHypothesis.1, inductionHypothesis.2⟩

theorem fieldLoop_late :
    (fieldLoop limits version input pos fieldCount seen table).2 = .incomplete →
      (fieldLoop limits version (input ++ rest) pos fieldCount seen table).2 = .complete fields →
      input.length < fields.stop := by
  induction pos, fieldCount, seen, table using fieldLoop_induction limits version input with
  | incomplete pos fieldCount seen table step =>
    intro _ complete
    rcases later : fieldLine (input ++ rest) pos with (- | line) | - | reason
    · have past := fieldLine_late step later
      rw [fieldLoop_of_none later] at complete
      cases complete
      exact past
    · have past := fieldLine_late step later
      by_cases fits : FieldFits limits table fieldCount (line.stop - pos)
      · rw [fieldLoop_of_some later fits] at complete
        exact Nat.lt_trans past (fieldLoop_lt complete).1
      · rw [fieldLoop_of_not_fits later fits] at complete
        cases complete
    · rw [fieldLoop_of_incomplete later] at complete
      cases complete
    · rw [fieldLoop_of_reject later] at complete
      cases complete
  | reject pos fieldCount seen table reason step =>
    intro open_
    rw [fieldLoop_of_reject step] at open_
    cases open_
  | ended pos fieldCount seen table step =>
    intro open_
    rw [fieldLoop_of_none step] at open_
    cases open_
  | overflows pos fieldCount seen table line step overflows =>
    intro open_
    rw [fieldLoop_of_not_fits step overflows] at open_
    cases open_
  | more pos fieldCount seen table line step fits inductionHypothesis =>
    intro open_ complete
    have inside := (fieldLine_lt step).2
    have spans := fieldLine_spans step
    rw [fieldLoop_of_some step fits] at open_
    rw [fieldLoop_of_some ((fieldLine_append (by simp [step]) rest).trans step) fits,
      entry_append (by omega), interpret_append (by exact Nat.le_trans spans.2 inside)] at complete
    exact inductionHypothesis open_ complete

theorem fieldLoop_incremental (limits : Http1Limits) (version : Version) (pos fieldCount : Nat)
    (seen : Interpreted) (table : List Field) :
    Incremental (fun input => (fieldLoop limits version input pos fieldCount seen table).2)
      FieldSection.stop :=
  Incremental.of_persist (fun _ _ complete => (fieldLoop_lt complete).2)
    (fun _ rest answered => congrArg Prod.snd (fieldLoop_append rest answered))
    fun _ _ _ open_ complete => fieldLoop_late open_ complete

/-! ### The whole head -/

variable {head : Head} {entries : List Field}

/-- The spans kept for the framing and host decisions end before `bound`. -/
def Interpreted.Inside (seen : Interpreted) (bound : Nat) : Prop :=
  (∀ span, seen.host = some span → span.stop ≤ bound) ∧
    ∀ span, seen.contentLength = some span → span.stop ≤ bound

theorem interpret_inside {id : Option HeaderName} {value : Span} {bound : Nat}
    (inside : seen.Inside bound) (valueInside : value.stop ≤ bound) :
    (interpret input version seen id value).Inside bound := by
  have kept : ∀ held : Option Span, (∀ span, held = some span → span.stop ≤ bound) →
      ∀ span, held.or (some value) = some span → span.stop ≤ bound := by
    intro held old span found
    rcases held with - | first
    · cases found
      exact valueInside
    · exact old span found
  rcases interpret_cases input version seen id value with
    ⟨-, same⟩ | ⟨-, same⟩ | ⟨-, same⟩ | ⟨-, -, -, _, _, _, _, _, same⟩ <;> rw [same]
  · exact ⟨kept _ inside.1, inside.2⟩
  · exact ⟨inside.1, kept _ inside.2⟩
  · exact inside
  · exact inside

theorem fieldLoop_inside
    (complete : (fieldLoop limits version input pos fieldCount seen table).2 = .complete fields) :
    seen.Inside input.length → fields.seen.Inside input.length := by
  refine fieldLoop_read (fun pos fieldCount seen table step last => ?ended)
    (fun pos fieldCount seen table line step fits inductionHypothesis => ?more) complete
  case ended =>
    subst last
    exact id
  case more =>
    intro inside
    refine inductionHypothesis (interpret_inside inside ?_)
    exact Nat.le_trans (fieldLine_spans step).2 (fieldLine_lt step).2

theorem conclude_append {line : LineRest} (tokenInside : token.stop ≤ input.length)
    (targetInside : line.target.stop ≤ input.length) (seenInside : fields.seen.Inside input.length)
    (rest : Bytes) :
    conclude (input ++ rest) token line fields = conclude input token line fields := by
  have target : ∀ method, classifyTarget line.target (input ++ rest) method =
      classifyTarget line.target input method := by
    intro method
    unfold classifyTarget
    rw [Span.of_append targetInside]
  have host : checkHost fields.seen (input ++ rest) line.version =
      checkHost fields.seen input line.version := by
    unfold checkHost
    rcases held : fields.seen.host with - | span
    · rfl
    · dsimp only
      rw [Span.of_append (seenInside.1 span held)]
  have length : framing fields.seen (input ++ rest) line.version =
      framing fields.seen input line.version := by
    unfold framing
    rcases held : fields.seen.contentLength with - | span
    · rfl
    · dsimp only
      rw [Span.of_append (seenInside.2 span held)]
  unfold conclude
  simp only [Span.of_append tokenInside, target, host, length]

/-- The decisions as the last part of the parser: the head and the table, or the rejection. -/
def conclusion (token : Span) (line : LineRest) (fields : FieldSection) (input : Bytes) :
    Verdict Reject (Head × List Field) :=
  match conclude input token line fields with
  | .ok head => .complete (head, fields.table)
  | .error reject => .reject reject

/-- The parser as a chain of parts: each sees the whole input and where the parts before it
ended. The value carries the table the parse leaves. -/
def headParser (limits : Http1Limits) (table : List Field) :
    Bytes → Verdict Reject (Head × List Field) :=
  andThen (fun input => skipEmptyLines limits input 0) fun headStart =>
    andThen (fun input => methodToken input headStart) fun token =>
      andThen
        (limited headStart limits.maxRequestLine (.closing .uriTooLong) LineRest.stop fun input =>
          lineRest input (token.stop + 1)) fun line =>
        andThen
          (limited headStart limits.maxHeadBytes .headerFieldsTooLarge FieldSection.stop fun input =>
            (fieldLoop limits line.version input line.stop 0 {} table).2) (conclusion token line)

theorem limitedLineRest_eq (limits : Http1Limits) (input : Bytes) (headStart pos : Nat) :
    limitedLineRest limits input headStart pos =
      limited headStart limits.maxRequestLine (.closing .uriTooLong) LineRest.stop
        (fun input => lineRest input pos) input := by
  unfold limitedLineRest limited needMoreLine
  dsimp only
  rcases lineRest input pos with line | - | reject <;> rfl

theorem limitedFields_eq (limits : Http1Limits) (version : Version) (input : Bytes)
    (headStart pos : Nat) (table : List Field) :
    (limitedFields limits version input headStart pos table).2 =
      limited headStart limits.maxHeadBytes .headerFieldsTooLarge FieldSection.stop
        (fun input => (fieldLoop limits version input pos 0 {} table).2) input := by
  unfold limitedFields limited needMore
  dsimp only
  rcases fieldLoop limits version input pos 0 {} table with ⟨left, fields | - | reject⟩
  · dsimp only
    split <;> rfl
  · rfl
  · rfl

/-- A complete field section carries the table the loop leaves. -/
theorem fieldLoop_table
    (complete : (fieldLoop limits version input pos fieldCount seen table).2 = .complete fields) :
    (fieldLoop limits version input pos fieldCount seen table).1 = fields.table := by
  refine fieldLoop_read (fun pos fieldCount seen table step last => ?ended)
    (fun pos fieldCount seen table line step fits inductionHypothesis => ?more) complete
  case ended => rw [fieldLoop_of_none step, ← last]
  case more =>
    rw [fieldLoop_of_some step fits]
    exact inductionHypothesis

theorem limitedFields_table {limits : Http1Limits} {version : Version} {input : Bytes}
    {headStart pos : Nat} {table : List Field} {fields : FieldSection}
    (complete : (limitedFields limits version input headStart pos table).2 = .complete fields) :
    (limitedFields limits version input headStart pos table).1 = fields.table := by
  rw [limitedFields_eq] at complete
  have kept := fieldLoop_table (limited_eq_complete.mp complete).1
  rw [← kept]
  unfold limitedFields
  rcases fieldLoop limits version input pos 0 {} table with ⟨left, fields | - | reject⟩
  · dsimp only
    split <;> rfl
  · rfl
  · rfl

theorem headParser_eq (limits : Http1Limits) (table : List Field) (input : Bytes) :
    headParser limits table input =
      match parse input table limits with
      | (table, .complete head) => .complete (head, table)
      | (_, .incomplete) => .incomplete
      | (_, .reject reject) => .reject reject := by
  unfold headParser parse andThen
  dsimp only
  rcases skipEmptyLines limits input 0 with headStart | - | reject
  · simp only [Verdict.complete_bind]
    rcases methodToken input headStart with token | - | reject
    · simp only [Verdict.complete_bind, ← limitedLineRest_eq]
      rcases limitedLineRest limits input headStart (token.stop + 1) with line | - | reject
      · simp only [Verdict.complete_bind, ← limitedFields_eq]
        have kept := @limitedFields_table limits line.version input headStart line.stop table
        revert kept
        rcases limitedFields limits line.version input headStart line.stop table with
          ⟨left, fields | - | reject⟩ <;> intro kept
        · cases kept rfl
          simp only [Verdict.complete_bind, conclusion]
          rcases conclude input token line fields with reject | head <;> rfl
        · rfl
        · rfl
      · rfl
      · rfl
    · rfl
    · rfl
  · rfl
  · rfl

/-- The spans a part of the head hands on end inside the input. -/
theorem methodToken_stop (complete : methodToken input pos = .complete token) :
    token.stop < input.length := by
  obtain ⟨-, -, space, rfl⟩ := methodToken_eq_complete.mp complete
  exact byte_lt space

theorem lineRest_target_stop {line : LineRest} (complete : lineRest input pos = .complete line) :
    line.target.stop < input.length := by
  obtain ⟨targetLen, -, -, space, -, -, -, target, -⟩ := lineRest_eq_complete.mp complete
  rw [target]
  exact byte_lt space

/-- A head that was concluded passed the target, host and framing rules, and holds what the
parts of the parser found. -/
theorem conclude_eq_ok {line : LineRest} :
    conclude input token line fields = .ok head →
    (∃ target, classifyTarget line.target input (Method.parse (token.of input)) = .ok target) ∧
      checkHost fields.seen input line.version = .ok () ∧
      framing fields.seen input line.version = .ok head.body ∧ head.methodToken = token ∧
      head.target = line.target ∧ head.version = line.version ∧
      head.fieldCount = fields.fieldCount ∧ head.len = fields.stop := by
  unfold conclude
  dsimp only
  rcases classifyTarget line.target input (Method.parse (token.of input)) with
    reject | ⟨form, path, authority⟩
  · intro complete
    cases complete
  · rcases checkHost fields.seen input line.version with reject | -
    · intro complete
      cases complete
    · rcases framing fields.seen input line.version with reject | body
      · intro complete
        cases complete
      · intro complete
        cases complete
        exact ⟨⟨_, rfl⟩, rfl, rfl, rfl, rfl, rfl, rfl, rfl⟩

theorem headParser_eq_complete
    (complete : headParser limits table input = .complete (head, entries)) :
    ∃ headStart token line fields, skipEmptyLines limits input 0 = .complete headStart ∧
      methodToken input headStart = .complete token ∧
      lineRest input (token.stop + 1) = .complete line ∧
      line.stop - headStart ≤ limits.maxRequestLine ∧
      (fieldLoop limits line.version input line.stop 0 {} table).2 = .complete fields ∧
      fields.stop - headStart ≤ limits.maxHeadBytes ∧
      conclude input token line fields = .ok head ∧ fields.table = entries := by
  obtain ⟨headStart, skipped, rest⟩ := Verdict.bind_eq_complete.mp complete
  obtain ⟨token, named, rest⟩ := Verdict.bind_eq_complete.mp rest
  obtain ⟨line, lined, rest⟩ := Verdict.bind_eq_complete.mp rest
  obtain ⟨fields, filled, rest⟩ := Verdict.bind_eq_complete.mp rest
  obtain ⟨lineFound, lineShort⟩ := limited_eq_complete.mp lined
  obtain ⟨fieldsFound, headShort⟩ := limited_eq_complete.mp filled
  refine ⟨headStart, token, line, fields, skipped, named, lineFound, lineShort, fieldsFound,
    headShort, ?_⟩
  unfold conclusion at rest
  rcases concluded : conclude input token line fields with reject | found
  · rw [concluded] at rest
    cases rest
  · rw [concluded] at rest
    cases rest
    exact ⟨rfl, rfl⟩

/-- Longer input does not revoke what was decided about a head. -/
theorem headParser_stable (limits : Http1Limits) (table : List Field) :
    PrefixStable (headParser limits table) fun parsed => parsed.1.len := by
  intro input
  have skipping : StableAt (fun input => skipEmptyLines limits input 0) id input :=
    StableAt.of_persist (fun _ complete => (skipEmptyLines_complete complete).1.le)
      fun answered rest => skipEmptyLines_append answered rest
  refine skipping.andThen fun headStart _ => ?_
  have naming : StableAt (fun input => methodToken input headStart) Span.stop input :=
    StableAt.of_persist (fun _ complete => (methodToken_stop complete).le)
      fun answered rest => methodToken_append answered rest
  refine naming.andThen fun token named => ?_
  refine StableAt.andThen ((lineRest_incremental (token.stop + 1)).limited _ _ _ input)
    fun line lined => ?_
  have targetInside := lineRest_target_stop (limited_eq_complete.mp lined).1
  refine StableAt.andThen ((fieldLoop_incremental _ _ _ _ _ _).limited _ _ _ input)
    fun fields filled => ?_
  have looped := (limited_eq_complete.mp filled).1
  have fieldsInside := (fieldLoop_lt looped).2
  have seenInside := fieldLoop_inside looped ⟨by simp, by simp⟩
  have same := conclude_append (methodToken_stop named).le targetInside.le seenInside
  refine StableAt.of_persist ?_ fun _ rest => by rw [conclusion, same rest, conclusion]
  rintro ⟨head, left⟩ complete
  unfold conclusion at complete
  rcases concluded : conclude input token line fields with reject | found
  · rw [concluded] at complete
    cases complete
  · rw [concluded] at complete
    cases complete
    obtain ⟨-, -, -, -, -, -, -, len⟩ := conclude_eq_ok concluded
    rw [len]
    exact fieldsInside

theorem parseRequest_eq_complete :
    parseRequest input table limits = (.complete head, entries) ↔
      headParser limits table input = .complete (head, entries) := by
  rw [headParser_eq]
  unfold parseRequest
  rcases parse input table limits with ⟨left, found | - | reject⟩
  · simp [Prod.ext_iff]
  · simp
  · simp

theorem parseRequest_eq_reject {reject : Reject} :
    (parseRequest input table limits).1 = .reject reject ↔
      headParser limits table input = .reject reject := by
  rw [headParser_eq]
  unfold parseRequest
  rcases parse input table limits with ⟨left, found | - | reject⟩ <;> simp

theorem parseRequest_eq_incomplete :
    (parseRequest input table limits).1 = .incomplete ↔
      headParser limits table input = .incomplete := by
  rw [headParser_eq]
  unfold parseRequest
  rcases parse input table limits with ⟨left, found | - | reject⟩ <;> simp

/-- A complete head is a part of the input, and never empty. -/
theorem parseRequest_len (complete : parseRequest input table limits = (.complete head, entries)) :
    0 < head.len ∧ head.len ≤ input.length := by
  obtain ⟨headStart, token, line, fields, -, -, -, -, looped, -, concluded, -⟩ :=
    headParser_eq_complete (parseRequest_eq_complete.mp complete)
  obtain ⟨-, -, -, -, -, -, -, len⟩ := conclude_eq_ok concluded
  have bounds := fieldLoop_lt looped
  omega

/-- How the stream was cut into reads does not show in what the parser answers: a complete
head stays the same head with the same fields, a rejected input stays rejected, and no prefix
that ends before the head does is answered. -/
theorem parseRequest_prefix_stable (limits : Http1Limits) (table : List Field) (input rest : Bytes) :
    (∀ head entries, parseRequest input table limits = (.complete head, entries) →
      ∃ later, parseRequest (input ++ rest) table limits = (.complete head, later) ∧
        later.take head.fieldCount = entries.take head.fieldCount) ∧
    (∀ reject, (parseRequest input table limits).1 = .reject reject →
      ∃ reason, (parseRequest (input ++ rest) table limits).1 = .reject reason) ∧
    ∀ head entries, parseRequest input table limits = (.complete head, entries) →
      ∀ short, short <+: input → short.length < head.len →
        (parseRequest short table limits).1 = .incomplete := by
  have stable := headParser_stable limits table
  refine ⟨fun head entries complete => ⟨entries, ?_, rfl⟩, fun reject refused => ?_,
    fun head entries complete short prefixed shorter => ?_⟩
  · exact parseRequest_eq_complete.mpr
      ((stable input).settled (parseRequest_eq_complete.mp complete) rest)
  · obtain ⟨reason, again⟩ := (stable input).refused (parseRequest_eq_reject.mp refused) rest
    exact ⟨reason, parseRequest_eq_reject.mpr again⟩
  · exact parseRequest_eq_incomplete.mpr
      (stable.incomplete_of_lt (parseRequest_eq_complete.mp complete) prefixed shorter)

/-- A request with one field, an extension and a prefix of it, and a request line no extension
repairs. -/
theorem parseRequest_prefix_stable_get :
    ∃ head entries,
      parseRequest (ascii "GET / HTTP/1.1\r\nHost: a\r\n\r\n") [.empty] .default =
        (.complete head, entries) ∧
      (∃ later, parseRequest (ascii "GET / HTTP/1.1\r\nHost: a\r\n\r\n" ++ ascii "GET")
          [.empty] .default = (.complete head, later) ∧
        later.take head.fieldCount = entries.take head.fieldCount) ∧
      (∃ reason, (parseRequest (ascii "GET  / " ++ ascii "HTTP/1.1") [.empty] .default).1 =
        .reject reason) ∧
      (parseRequest (ascii "GET / HTTP/1.1\r\nHost: a\r\n\r") [.empty] .default).1 =
        .incomplete := by
  have complete : parseRequest (ascii "GET / HTTP/1.1\r\nHost: a\r\n\r\n") [.empty] .default =
      (.complete {
        method := some .get, methodToken := ⟨0, 3⟩, target := ⟨4, 5⟩, form := .origin,
        path := ⟨4, 5⟩, authority := some ⟨22, 23⟩, host := some ⟨22, 23⟩, version := .http11,
        fieldCount := 1, body := .none, keepAlive := true, expect := .none, upgrade := false,
        len := 27 }, [⟨⟨16, 20⟩, ⟨22, 23⟩, some .host⟩]) := by
    decide +kernel
  exact ⟨_, _, complete,
    (parseRequest_prefix_stable .default [.empty] _ (ascii "GET")).1 _ _ complete,
    (parseRequest_prefix_stable .default [.empty] _ (ascii "HTTP/1.1")).2.1 .badRequest
      (by decide +kernel),
    (parseRequest_prefix_stable .default [.empty] _ []).2.2 _ _ complete
      (ascii "GET / HTTP/1.1\r\nHost: a\r\n\r") (by decide) (by decide)⟩

end ZeroServer.Http1
