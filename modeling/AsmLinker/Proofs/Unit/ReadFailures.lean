import Mathlib
import AsmLinker.Proofs.Token.Reads
import AsmLinker.Proofs.Unit.Invariant

/-!
# Failed reads

A read of the source can fail in six places: between two bytes of a lexeme, behind a carriage
return, and inside of a comment, a literal, an escape or its digits. In each of them the end of the
source is met in a way of its own, and in none of them a failure is taken for it
(`Assembly.assemble_read_failure`).

A source with a failure is answered like the source without it up to the request that reaches the
failure (`Scanner.answers_failing`). So a call either stops before that request, in the same way, or
stops with the failure and holds what had been assembled by then.
-/

namespace AsmLinker.Assembly

variable {answers : List (Except Error Token)}

/-- How many answers of the scanner a run asks for: those that it takes, and the end of the file if
it comes that far. -/
def requests (a : Assembly) (context : Context) : List (Except Error Token) → Nat
  | [] => 1
  | .error e :: rest =>
    if e.isFatal then 1 else requests { a with warnings := a.warnings ++ [e] } context rest + 1
  | .ok token :: rest =>
    match a.feed context token with
    | (.error _, _) => 1
    | (.ok context, a) => requests a context rest + 1

/-- The scanner of a source before its first request. -/
def scanner (path : String) (source : Source) : Scanner :=
  { source, origin := path, lineEnds := true }

/-- How often the source is read by the first call. -/
def firstReads (path : String) (source : Source) : Nat :=
  (scanner path source).readsIn
    ((ofSource path source).requests .statement (ofSource path source).input.answers)

/-- A run asks for more behind answers if it accepts all of them. -/
theorem lt_requests_iff (a : Assembly) (context : Context) {k : Nat} (hk : k ≤ answers.length) :
    k < a.requests context answers ↔
      ∃ next m, a.feedAll context (answers.take k) = (.ok next, m) := by
  fun_induction requests a context answers generalizing k with
  | case1 a context =>
    obtain rfl := Nat.le_zero.mp hk
    exact iff_of_true Nat.zero_lt_one ⟨context, a, rfl⟩
  | case2 a context e rest hfatal =>
    cases k with
    | zero => exact iff_of_true Nat.zero_lt_one ⟨context, a, rfl⟩
    | succ k => simp [feedAll, hfatal]
  | case3 a context e rest hfatal ih =>
    cases k with
    | zero => exact iff_of_true (Nat.succ_pos _) ⟨context, a, rfl⟩
    | succ k =>
      rw [List.take_succ_cons, feedAll, if_neg hfatal, Nat.add_lt_add_iff_right]
      exact ih (Nat.le_of_succ_le_succ hk)
  | case4 a context token rest e a' hfeed =>
    cases k with
    | zero => exact iff_of_true Nat.zero_lt_one ⟨context, a, rfl⟩
    | succ k => simp [feedAll, hfeed]
  | case5 a context token rest next a' hfeed ih =>
    cases k with
    | zero => exact iff_of_true (Nat.succ_pos _) ⟨context, a, rfl⟩
    | succ k =>
      rw [List.take_succ_cons, feedAll_ok_cons hfeed, Nat.add_lt_add_iff_right]
      exact ih (Nat.le_of_succ_le_succ hk)

/-- A run over answers with a grave error among them stops before it, or else with it. -/
theorem exists_run_fatal (a : Assembly) (context : Context) (first more : List (Except Error Token))
    {e : Error} (he : e.isFatal = true) :
    ∃ input, a.run context (first ++ .error e :: more) =
      match a.feedAll context first with
      | (.error earlier, m) => (.error earlier, m.withInput input)
      | (.ok _, m) => (.error e, m.withInput input) := by
  rcases hfirst : a.feedAll context first with ⟨earlier | next, m⟩
  · obtain ⟨rest, hrun⟩ := run_of_feedAll_error (feedAll_append_error (.error e :: more) hfirst)
    exact ⟨_, hrun⟩
  · rw [run_append _ hfirst, run, if_pos he]
    exact ⟨_, rfl⟩

/-- What is answered to a source in which a read fails: as much as without the failure before the
request that comes to the failed read, and then the failure. -/
theorem exists_failing_answers (path cause : String) {bytes : List UInt8} {n : Nat}
    (hn : n ≤ bytes.length) :
    ∃ k rest, (∀ j, j ≤ k ↔ (scanner path (.ofBytes bytes)).readsIn j ≤ n) ∧
      k ≤ (ofSource path (.ofBytes bytes)).input.answers.length ∧
      (ofSource path (.ofBytesFailingAt bytes n cause)).input.answers =
        (ofSource path (.ofBytes bytes)).input.answers.take k ++
          .error (.file .read path cause) :: rest := by
  have hinput : (scanner path (.ofBytes bytes)).source.rest =
      (bytes.take n).map .byte ++ (bytes.drop n).map .byte := by
    rw [← List.map_append, List.take_append_drop]
    rfl
  obtain ⟨k, rest, hk, hle, hanswers⟩ := Scanner.answers_failing cause rfl hinput
  rw [List.length_map, List.length_take, Nat.min_eq_left hn] at hk
  refine ⟨k, rest, hk, hle, ?_⟩
  rw [Source.ofBytesFailingAt, if_pos hn]
  exact hanswers

/-- A read fails that would deliver a byte of a source or its end. If the first call stops before it
comes to that read, it stops with the same error. Otherwise it reports the failure, and in no case
the source counts as assembled. What it holds then is what it holds at some moment without the
failure, and so a part of what it would hold in the end. -/
theorem assemble_read_failure (path cause : String) {bytes : List UInt8} {n : Nat}
    (hn : n ≤ bytes.length) :
    let whole := ofSource path (.ofBytes bytes)
    let failing := ofSource path (.ofBytesFailingAt bytes n cause)
    (firstReads path (.ofBytes bytes) ≤ n →
        ∃ e, whole.assemble.1 = .error e ∧ failing.assemble.1 = .error e) ∧
      (n < firstReads path (.ofBytes bytes) →
        failing.assemble.1 = .error (.file .read path cause)) ∧
      failing.assemble.1 ≠ .ok () ∧
      failing.assemble.2.unit.Extends whole.assemble.2.unit := by
  intro whole failing
  obtain ⟨k, rest, hk, hle, hanswers⟩ := exists_failing_answers path cause hn
  have hreads : firstReads path (.ofBytes bytes) ≤ n ↔
      whole.requests .statement whole.input.answers ≤ k := (hk _).symm
  have hrequests := lt_requests_iff whole .statement hle
  have hcoherent : Coherent .statement whole := (consistent_ofSource path (.ofBytes bytes)).coherent
  -- what is held behind the answers before the failure is kept without it
  have hkept : (whole.feedAll .statement (whole.input.answers.take k)).2.unit.Extends
      whole.assemble.2.unit := by
    have hlater := feedAll_extends_append hcoherent (whole.input.answers.take k)
      (whole.input.answers.drop k)
    rw [List.take_append_drop] at hlater
    exact hlater.trans (feedAll_extends_run hcoherent _)
  obtain ⟨input, hfailing⟩ := exists_run_fatal (whole.withInput failing.input) .statement
    (whole.input.answers.take k) rest (show (Error.file .read path cause).isFatal = true from rfl)
  rw [← hanswers, feedAll_withInput] at hfailing
  change failing.assemble = _ at hfailing
  rcases htaken : whole.feedAll .statement (whole.input.answers.take k) with ⟨e | next, m⟩
  · -- the call stops before the failure
    rw [htaken] at hfailing hkept hrequests
    obtain ⟨left, hwhole⟩ :=
      run_of_feedAll_error (feedAll_append_error (whole.input.answers.drop k) htaken)
    rw [List.take_append_drop] at hwhole
    have hstops : firstReads path (.ofBytes bytes) ≤ n := by
      rw [hreads, ← Nat.not_lt, hrequests]
      rintro ⟨_, _, ⟨⟩⟩
    rw [hfailing]
    refine ⟨fun _ => ⟨e, congrArg Prod.fst hwhole, rfl⟩, fun hlt => ?_, nofun, hkept⟩
    exact absurd hstops (Nat.not_le.mpr hlt)
  · -- it comes to the failure
    rw [htaken] at hfailing hkept hrequests
    have hreaches : n < firstReads path (.ofBytes bytes) := by
      rw [← Nat.not_le, hreads, Nat.not_le, hrequests]
      exact ⟨next, m, rfl⟩
    rw [hfailing]
    refine ⟨fun hle => ?_, fun _ => rfl, nofun, hkept⟩
    exact absurd hle (Nat.not_le.mpr hreaches)

/-- The second statement is refused when its line ends. A failure behind the line is never met, and
a failure in place of the line end is reported, with the first instruction held. -/
theorem assemble_read_failure_before_refusal :
    let bytes := utf8 "ret\n1\nret\n"
    let late := ofSource "unit" (.ofBytesFailingAt bytes 6 "broken")
    let early := ofSource "unit" (.ofBytesFailingAt bytes 5 "broken")
    firstReads "unit" (.ofBytes bytes) = 6 ∧
      (∃ e, (ofSource "unit" (.ofBytes bytes)).assemble.1 = .error e ∧
        late.assemble.1 = .error e) ∧
      early.assemble.1 = .error (.file .read "unit" "broken") ∧
      early.assemble.2.unit.Extends (ofSource "unit" (.ofBytes bytes)).assemble.2.unit ∧
      early.assemble.2.unit.instructions.length = 1 := by
  intro bytes late early
  have hreads : firstReads "unit" (.ofBytes bytes) = 6 := by decide +kernel
  obtain ⟨-, hreported, -, hextends⟩ :=
    assemble_read_failure "unit" "broken" (show 5 ≤ bytes.length by decide)
  refine ⟨hreads, ?_, hreported (by rw [hreads]; decide), hextends, by decide +kernel⟩
  exact (assemble_read_failure "unit" "broken" (show 6 ≤ bytes.length by decide)).1 hreads.le

end AsmLinker.Assembly
