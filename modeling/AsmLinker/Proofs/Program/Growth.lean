import Mathlib
import AsmLinker.Proofs.Program.Resolved
import AsmLinker.Proofs.Unit.Progress

/-!
# How far sections grow

No statement fills a section with much more than it takes to write it down. Three letters and the
end of a line make a record of 32 bytes, and a literal is stored with at most one byte more than
stands between its quotes, for no escape is shorter than what it stands for.

The accounts are kept in two parts. A token has a cost, a number of bytes that it takes to spell it,
and the answers of a scanner do not cost more than the bytes of its source (`Scanner.cost_answers`).
A section grows by at most eight bytes for each byte of the cost of a token
(`Assembly.Takes.filled`), where an instruction that has been begun is given credit for the end of
its line.

The end of the source may end a line for which there is no byte, once: behind it nothing is left to
take. So the sections of a source of `n` bytes never have more than `8 * (n + 1)` bytes together,
whatever reads fail and however often assembling is resumed, and the bounds of units that are merged
add up (`Program.sections_bounded`).
-/

namespace AsmLinker

/-! ## The bytes of a source -/

/-- The read delivers a byte. -/
def Signal.isByte : Signal → Bool
  | .byte _ => true
  | .fault _ => false

/-- The number of bytes among signals, of which the failed reads have none. -/
def bytesIn (signals : List Signal) : Nat :=
  signals.countP Signal.isByte

@[simp] theorem bytesIn_byte (b : UInt8) (rest : List Signal) :
    bytesIn (.byte b :: rest) = bytesIn rest + 1 :=
  List.countP_cons_of_pos rfl

@[simp] theorem bytesIn_fault (cause : String) (rest : List Signal) :
    bytesIn (.fault cause :: rest) = bytesIn rest :=
  List.countP_cons_of_neg (by simp [Signal.isByte])

theorem bytesIn_le_of_suffix {signals signals' : List Signal} (h : signals <:+ signals') :
    bytesIn signals ≤ bytesIn signals' :=
  h.sublist.countP_le

theorem bytesIn_map_byte (bytes : List UInt8) : bytesIn (bytes.map .byte) = bytes.length := by
  induction bytes with
  | nil => rfl
  | cons b rest ih => rw [List.map_cons, bytesIn_byte, ih, List.length_cons]

/-- The number of bytes that a source has still to deliver. -/
def Source.byteCount (source : Source) : Nat :=
  bytesIn source.pending

/-- A read that fails takes no byte away. -/
theorem Source.byteCount_ofBytesFailingAt (bytes : List UInt8) (position : Nat) (cause : String) :
    (ofBytesFailingAt bytes position cause).byteCount = bytes.length := by
  unfold ofBytesFailingAt
  split
  · change bytesIn ((bytes.take position).map .byte ++ .fault cause ::
      (bytes.drop position).map .byte) = _
    rw [bytesIn, List.countP_append, ← bytesIn, ← bytesIn, bytesIn_fault, bytesIn_map_byte,
      bytesIn_map_byte, ← List.length_append, List.take_append_drop]
  · exact bytesIn_map_byte bytes

/-! ## What a token costs -/

/-- A number of bytes that it takes to spell a lexeme. Only those count for which a section grows;
the end of the file stands for the end of a line. -/
def Lexeme.cost : Lexeme → Nat
  | .opcode _ => 3
  | .ascii text => text.toUTF8.data.toList.length + 2
  | .endOfLine | .endOfFile => 1
  | .register _ | .identifier _ | .digits _ _ | .label _ | .directive _ => 0

/-- The number of bytes that have been read for what a mode holds. -/
def Mode.cost : Mode → Nat
  | .identifier word => word.length
  | .held token => token.lexeme.cost
  | .initial | .digits _ | .directive _ | .skipping | .exhausted => 0

theorem Opcode.le_length_mnemonic (op : Opcode) : 3 ≤ op.mnemonic.length := by
  cases op <;> decide

theorem Lexeme.cost_ofName (word : String) : (ofName word).cost ≤ word.length := by
  unfold ofName
  split
  next op hop =>
    rw [← Opcode.ofMnemonic?_eq_some_iff.mp hop]
    exact op.le_length_mnemonic
  · exact Nat.zero_le _

theorem Lexeme.cost_ofWord (word : String) : (ofWord word).cost ≤ word.length := by
  unfold ofWord
  split
  · split
    · exact Nat.zero_le _
    · exact cost_ofName word
  · exact cost_ofName word

namespace Mode

/-- A lexeme that was read costs no more than has been read for it. -/
theorem cost_complete {mode : Mode} {lexeme : Lexeme} (h : mode.complete = .ok lexeme) :
    lexeme.cost ≤ mode.cost := by
  cases mode with
  | identifier word =>
    cases h
    exact Lexeme.cost_ofWord word
  | digits text =>
    rw [complete] at h
    split at h <;> cases h
    exact le_rfl
  | directive word =>
    rw [complete] at h
    split at h <;> cases h
    exact le_rfl
  | _ => cases h

theorem cost_push (c : Char) (mode : Mode) : (mode.push c).cost ≤ mode.cost + 1 := by
  cases mode with
  | identifier word => simp [push, cost]
  | _ => exact Nat.le_succ _

theorem cost_of_token? {mode : Mode} {token : Token} (h : mode.token? = some token) :
    mode.cost = token.lexeme.cost := by
  cases mode <;> cases h
  rfl

theorem cost_of_resting {mode : Mode} (h : mode.resting = true) : mode.cost = 0 := by
  cases mode with
  | initial | skipping | exhausted => rfl
  | _ => cases h

end Mode

/-! ## Literals -/

namespace Literal

variable {input rest : List Signal}

/-- An escape takes a byte at least. -/
theorem bytesIn_escape {decoded : UInt8} (h : escape input = (.ok decoded, rest)) :
    bytesIn rest + 1 ≤ bytesIn input := by
  unfold escape at h
  split at h
  · cases h
  · cases h
  next b behind =>
    have hsuffix : rest <:+ behind := by
      split at h
      · have hhex := suffix_hexEscape behind
        rwa [h] at hhex
      · split at h
        · cases h
        · split at h <;> cases h
          exact List.suffix_rfl
    rw [bytesIn_byte]
    exact Nat.succ_le_succ (bytesIn_le_of_suffix hsuffix)

/-- What is decoded is not longer than what was read, even without the closing quote. -/
theorem bytesIn_body {bytes : List UInt8} (h : body input = (.ok bytes, rest)) :
    bytesIn rest + bytes.length + 1 ≤ bytesIn input := by
  fun_induction body input generalizing bytes with
  | case1 | case2 | case4 | case5 => cases h
  | case3 b behind hquote =>
    cases h
    rw [bytesIn_byte]
    exact le_rfl
  | case6 b behind _ _ _ decoded behind' hescape ih =>
    obtain ⟨tail, rfl, htail⟩ := prepend_eq_ok h
    -- the backslash is read for nothing, and the escape pays for its byte
    have hrest := ih htail
    have htaken := bytesIn_escape hescape
    rw [bytesIn_byte, List.length_cons]
    omega
  | case7 b behind _ _ _ ih =>
    obtain ⟨tail, rfl, htail⟩ := prepend_eq_ok h
    have hrest := ih htail
    rw [bytesIn_byte, List.length_cons]
    omega

theorem toUTF8_of_fromUTF8? {bytes : List UInt8} {text : String}
    (h : String.fromUTF8? ⟨bytes.toArray⟩ = some text) : text.toUTF8.data.toList = bytes := by
  unfold String.fromUTF8? at h
  split at h
  · cases h
    rfl
  · cases h

/-- A literal is not longer than what stands behind its opening quote, up to the closing one. -/
theorem bytesIn_read {text : String} (h : read input = (.ok text, rest)) :
    bytesIn rest + text.toUTF8.data.toList.length + 1 ≤ bytesIn input := by
  unfold read at h
  split at h
  · cases h
  next bytes behind hbody =>
    split at h
    next text' htext =>
      cases h
      rw [toUTF8_of_fromUTF8? htext]
      exact bytesIn_body hbody
    · cases h

end Literal

/-! ## The accounts of the scanner -/

/-- What a step has to show for the bytes it took: the mode it leads to, or a token. -/
def Step.cost : Step → Nat
  | .more mode _ => mode.cost
  | .emit token _ _ => token.lexeme.cost
  | .fail _ _ => 0

namespace TokenStream

/-- What an answer costs. -/
def cost : Except Error Token → Nat
  | .ok token => token.lexeme.cost
  | .error _ => 0

/-- What answers cost together. -/
def totalCost (answers : List (Except Error Token)) : Nat :=
  (answers.map cost).sum

theorem totalCost_cons (answer : Except Error Token) (rest : List (Except Error Token)) :
    totalCost (answer :: rest) = cost answer + totalCost rest :=
  List.sum_cons

theorem totalCost_append (first second : List (Except Error Token)) :
    totalCost (first ++ second) = totalCost first + totalCost second := by
  rw [totalCost, List.map_append, List.sum_append, ← totalCost, ← totalCost]

end TokenStream

namespace Scanner

variable {s : Scanner} {mode : Mode} {b : UInt8}

theorem cost_endLine : (s.endLine mode b).cost ≤ 1 + mode.cost := by
  unfold endLine
  split
  · exact Nat.zero_le _
  · dsimp only
    split
    · exact Nat.le_add_right _ _
    · exact Nat.le_add_left _ _

theorem cost_comment : (s.comment mode).cost ≤ mode.cost := by
  unfold comment
  split
  · exact Nat.zero_le _
  · exact le_rfl

/-- The opening quote of a literal has been read before. -/
theorem cost_literal : bytesIn s.literal.scanner.source.pending + s.literal.cost ≤
    bytesIn s.source.pending + 1 := by
  have hsuffix := bytesIn_le_of_suffix s.suffix_literal
  unfold literal at hsuffix ⊢
  split
  next text rest hread =>
    have hle := Literal.bytesIn_read hread
    -- the closing quote pays for one of the two bytes on top, and the opening one for the other
    change bytesIn rest + (text.toUTF8.data.toList.length + 2) ≤ _
    omega
  next fault rest hread =>
    rw [hread] at hsuffix
    exact hsuffix.trans (Nat.le_succ _)
  next cause rest hread =>
    rw [hread] at hsuffix
    exact hsuffix.trans (Nat.le_succ _)

/-- A step pays for the mode it leads to, or for its token, with its byte, with bytes behind it and
with what the mode before it has cost. -/
theorem cost_step (hclear : s.source.back = none) (mode : Mode) (b : UInt8) :
    bytesIn (s.step mode b).scanner.source.pending + (s.step mode b).cost ≤
      bytesIn s.source.pending + 1 + mode.cost := by
  -- a byte that is left for later pays for nothing
  have hunread : bytesIn (s.unread b).source.pending = bytesIn s.source.pending + 1 := by
    rw [unread, Source.pending_unread b hclear, bytesIn_byte]
  unfold step
  split
  case h_1 =>
    have hpush := mode.cost_push (Char.ofUInt8 b)
    change bytesIn s.source.pending + (mode.push _).cost ≤ _
    omega
  case h_2 =>
    change bytesIn s.source.pending + (String.singleton _).length ≤ _
    rw [String.length_singleton]
    exact Nat.le_add_right _ _
  case h_3 | h_4 | h_8 | h_16 =>
    exact (Nat.le_succ _).trans (Nat.le_add_right _ _)
  case h_5 | h_6 =>
    split
    next lexeme hcomplete =>
      have hcost := Mode.cost_complete hcomplete
      change bytesIn s.source.pending + lexeme.cost ≤ _
      omega
    · exact (Nat.le_succ _).trans (Nat.le_add_right _ _)
  case h_7 =>
    split
    next lexeme hcomplete =>
      have hcost := Mode.cost_complete hcomplete
      change bytesIn (s.unread b).source.pending + lexeme.cost ≤ _
      omega
    · change bytesIn (s.unread b).source.pending ≤ _
      omega
  case h_9 =>
    split
    next token htoken =>
      have hcost := Mode.cost_of_token? htoken
      change bytesIn (s.unread b).source.pending + token.lexeme.cost ≤ _
      omega
    · change bytesIn (s.unread b).source.pending ≤ _
      omega
  case h_10 =>
    split
    next token htoken =>
      have hcost := Mode.cost_of_token? htoken
      change bytesIn s.source.pending + token.lexeme.cost ≤ _
      omega
    · exact (Nat.le_succ _).trans (Nat.le_add_right _ _)
  case h_11 =>
    change bytesIn s.source.pending + mode.cost ≤ _
    omega
  case h_12 =>
    have hsuffix := bytesIn_le_of_suffix (s.suffix_endLine mode b)
    have hcost : (s.endLine mode b).cost ≤ 1 + mode.cost := cost_endLine
    omega
  case h_13 =>
    have hsuffix := bytesIn_le_of_suffix (s.suffix_comment mode)
    have hcost : (s.comment mode).cost ≤ mode.cost := cost_comment
    omega
  case h_14 =>
    have hcost : bytesIn s.literal.scanner.source.pending + s.literal.cost ≤ _ := cost_literal
    omega
  case h_15 =>
    change bytesIn (s.unread b).source.pending ≤ _
    omega

/-- What has been begun when the input runs out has been paid for, except for the end of the
file. -/
theorem cost_finish (hend : (Reading.mk (s.finish mode).1 (s.finish mode).2).isEnd = false) :
    TokenStream.cost (s.finish mode).1 ≤ mode.cost := by
  cases mode with
  | held token => exact le_rfl
  | initial | skipping | exhausted => cases hend
  | _ =>
    unfold finish
    dsimp only
    split
    next lexeme hcomplete => exact Mode.cost_complete hcomplete
    · exact Nat.zero_le _

/-- A request pays for its answer with the bytes it takes, except for the end of the file. -/
theorem cost_resume (hend : (Reading.mk (s.resume mode).1 (s.resume mode).2).isEnd = false) :
    bytesIn (s.resume mode).2.source.pending + TokenStream.cost (s.resume mode).1 ≤
      bytesIn s.source.pending + mode.cost := by
  fun_induction resume s mode with
  | case1 s mode source hread =>
    have hnil := pending_of_next_none hread
    have hcost := cost_finish hend
    have hsuffix := s.suffix_resume mode
    rw [resume_nil mode hnil] at hsuffix
    exact Nat.add_le_add (bytesIn_le_of_suffix hsuffix) hcost
  | case2 s mode cause source hread =>
    obtain ⟨rest, hpending, rfl⟩ := pending_of_next hread
    rw [hpending, bytesIn_fault]
    exact Nat.le_add_right _ _
  | case3 s mode b source hread mode' s' hstep ih =>
    obtain ⟨rest, hpending, rfl⟩ := pending_of_next hread
    have hcost := cost_step (s := { s with source := ⟨none, rest⟩ }) rfl mode b
    rw [hstep] at hcost
    rw [hpending, bytesIn_byte]
    -- what the step has paid into the mode is there for the next one
    exact (ih hend).trans hcost
  | case4 s mode b source hread token mode' s' hstep =>
    obtain ⟨rest, hpending, rfl⟩ := pending_of_next hread
    have hcost := cost_step (s := { s with source := ⟨none, rest⟩ }) rfl mode b
    rw [hstep] at hcost
    rw [hpending, bytesIn_byte]
    exact hcost
  | case5 s mode b source hread e s' hstep =>
    obtain ⟨rest, hpending, rfl⟩ := pending_of_next hread
    have hcost := cost_step (s := { s with source := ⟨none, rest⟩ }) rfl mode b
    rw [hstep] at hcost
    rw [(source_failed s' e mode).1, hpending, bytesIn_byte]
    exact hcost

/-- The answers of a scanner do not cost more than the bytes that are pending. -/
theorem cost_answers (hs : s.mode.resting = true) :
    TokenStream.totalCost s.answers ≤ bytesIn s.source.pending := by
  induction hn : s.source.pending.length using Nat.strong_induction_on generalizing s with
  | _ n ih =>
    rw [answers, ofScanner_eq hs]
    cases hend : s.read.isEnd with
    | true => exact Nat.zero_le _
    | false =>
      have hlt := length_scan_lt hs hend
      have hrest := ih _ (hn ▸ hlt) (resting_read hs) rfl
      have hfirst := cost_resume hend
      rw [Mode.cost_of_resting hs, Nat.add_zero] at hfirst
      rw [if_neg Bool.false_ne_true, TokenStream.totalCost_cons, Nat.add_comm]
      exact (Nat.add_le_add_right hrest _).trans hfirst

end Scanner

/-! ## The accounts of an assembly -/

namespace PerSection

/-- The sum of the values of all sections. -/
def total (p : PerSection Nat) : Nat :=
  p.data + p.text + p.string

theorem get_le_total (p : PerSection Nat) (home : Section) : p.get home ≤ p.total := by
  cases home <;> simp only [get, total] <;> omega

theorem total_set (p : PerSection Nat) (home : Section) (n : Nat) :
    (p.set home n).total + p.get home = p.total + n := by
  cases home <;> simp only [set, get, total] <;> omega

end PerSection

/-- The credit of a context: an instruction has been paid for with its mnemonic, up to the end of
its line. -/
def Context.credit : Context → Nat
  | .operands _ _ _ => 24
  | .statement | .directive _ _ _ | .declaration _ _ | .closing => 0

namespace Assembly

variable {a a' : Assembly} {context : Context} {token : Token} {result : Except Error Context}

theorem credit_literalOutcome (token : Token) : (resumed (literalOutcome token)).credit = 0 := by
  unfold literalOutcome
  split <;> rfl

/-- A literal is stored with at most one byte more than it has. -/
theorem total_record_le (name : String) (encoding : Encoding) (text : String) :
    (a.record name encoding text).offsets.total ≤
      a.offsets.total + (text.toUTF8.data.toList.length + 1) := by
  have htotal := a.offsets.total_set a.active (a.recorded name encoding text).stop
  have hlength : (a.recorded name encoding text).length ≤ text.toUTF8.data.toList.length + 1 := by
    cases encoding with
    | raw => exact Nat.le_succ _
    | zeroTerminated => exact le_rfl
  have hstop : (a.recorded name encoding text).stop =
      a.offsets.get a.active + (a.recorded name encoding text).length := rfl
  rw [offsets_record]
  omega

theorem total_append (ins : Instruction) :
    (a.append ins).offsets.total = a.offsets.total + Record.size := by
  simp only [append, PerSection.set, PerSection.total]
  omega

theorem one_le_cost_of_endsLine (h : token.endsLine = true) : 1 ≤ token.lexeme.cost := by
  unfold Token.endsLine at h
  split at h
  next hlexeme => exact hlexeme ▸ le_rfl
  next hlexeme => exact hlexeme ▸ le_rfl
  · cases h

/-- Whatever is done with a token, the sections grow by at most eight bytes for each byte that it
costs, with the credit of the context taken into account. -/
theorem Takes.filled (h : Takes a context token result a') :
    a'.offsets.total + (resumed result).credit ≤
      a.offsets.total + context.credit + 8 * token.lexeme.cost := by
  cases h with
  | blank | activate | announce | label | declaration | await | close | refuse | refuseBound =>
    exact (Nat.le_add_right _ _).trans (Nat.le_add_right _ _)
  | operation hlexeme =>
    -- the mnemonic pays for the credit
    rw [hlexeme]
    exact le_rfl
  | directiveLiteral hlexeme =>
    rw [hlexeme, credit_literalOutcome]
    refine (total_record_le _ _ _).trans ?_
    simp only [Context.credit, Lexeme.cost]
    omega
  | declarationLiteral hlexeme =>
    rw [hlexeme, credit_literalOutcome]
    refine (total_record_le _ _ _).trans ?_
    simp only [bind, Context.credit, Lexeme.cost]
    omega
  | operand => exact Nat.le_add_right _ _
  | instruction hends =>
    -- the credit and the end of the line pay for a record
    have hcost := one_le_cost_of_endsLine hends
    rw [total_append]
    simp only [resumed, Context.credit, Record.size]
    omega

theorem filled_feed (a : Assembly) (context : Context) (token : Token) :
    (a.feed context token).2.offsets.total + (resumed (a.feed context token).1).credit ≤
      a.offsets.total + context.credit + 8 * token.lexeme.cost :=
  (takes_feed a context token).filled

/-- Behind a sequence of answers the sections have grown by at most eight bytes for each byte that
the answers cost. -/
theorem filled_feedAll (a : Assembly) (context : Context) (answers : List (Except Error Token)) :
    (a.feedAll context answers).2.offsets.total ≤
      a.offsets.total + context.credit + 8 * TokenStream.totalCost answers := by
  fun_induction feedAll a context answers with
  | case1 | case2 => exact (Nat.le_add_right _ _).trans (Nat.le_add_right _ _)
  | case3 a context e rest hfatal ih =>
    rw [TokenStream.totalCost_cons, TokenStream.cost, Nat.zero_add]
    exact ih
  | case4 a context token rest e b hfeed =>
    have hfilled := filled_feed a context token
    rw [hfeed] at hfilled
    rw [TokenStream.totalCost_cons, TokenStream.cost]
    dsimp only at hfilled ⊢
    omega
  | case5 a context token rest next b hfeed ih =>
    have hfilled := filled_feed a context token
    rw [hfeed] at hfilled
    rw [TokenStream.totalCost_cons, TokenStream.cost]
    dsimp only [resumed] at hfilled
    omega

/-- The sections and what is left to take are within what a source of `n` bytes pays for. The end of
the source is taken only when nothing is left, and pays for one more byte. -/
def Afforded (n : Nat) (a : Assembly) : Prop :=
  a.offsets.total + 8 * TokenStream.totalCost a.input.answers ≤ 8 * n ∨
    a.input.answers = [] ∧ a.offsets.total ≤ 8 * (n + 1)

/-- The end of the source is taken when nothing is left. -/
theorem afforded_endOfFile {n : Nat} (line : Nat) (hnil : a.input.answers = [])
    (h : a.offsets.total + context.credit ≤ 8 * n) :
    (a.feed context (.endOfFile line)).2.Afforded n := by
  have hfilled := filled_feed a context (.endOfFile line)
  have hcost : (Token.endOfFile line).lexeme.cost = 1 := rfl
  refine .inr ⟨?_, by omega⟩
  rw [input_feed]
  exact hnil

/-- A run stays within what was afforded before it. -/
theorem afforded_run {n : Nat} {answers : List (Except Error Token)}
    (h : a.offsets.total + context.credit + 8 * TokenStream.totalCost answers ≤ 8 * n) :
    (a.run context answers).2.Afforded n := by
  fun_induction run a context answers with
  | case1 a context b e c hfeed | case2 a context b e c hfeed =>
    have hafforded : (b.feed context (.endOfFile b.input.endLine)).2.Afforded n :=
      afforded_endOfFile _ rfl h
    rw [hfeed] at hafforded
    exact hafforded
  | case3 a context e rest hfatal =>
    -- the credit of the statement that was broken off is lost
    rw [TokenStream.totalCost_cons, TokenStream.cost, Nat.zero_add] at h
    left
    dsimp only
    omega
  | case4 a context e rest hfatal ih =>
    rw [TokenStream.totalCost_cons, TokenStream.cost, Nat.zero_add] at h
    exact ih h
  | case5 a context token rest e b hfeed =>
    have hfilled := filled_feed a context token
    rw [hfeed] at hfilled
    rw [TokenStream.totalCost_cons, TokenStream.cost] at h
    left
    dsimp only at hfilled ⊢
    omega
  | case6 a context token rest next b hfeed ih =>
    have hfilled := filled_feed a context token
    rw [hfeed] at hfilled
    rw [TokenStream.totalCost_cons, TokenStream.cost] at h
    dsimp only [resumed] at hfilled
    apply ih
    omega

/-- A source affords what is assembled from it, however often assembling is resumed. -/
theorem afforded_calls (path : String) (source : Source) (k : Nat) :
    ((ofSource path source).calls k).Afforded source.byteCount := by
  induction k with
  | zero =>
    left
    have hcost := Scanner.cost_answers (s := { source, origin := path, lineEnds := true }) rfl
    change 0 + 8 * TokenStream.totalCost (Scanner.answers _) ≤ _
    rw [Nat.zero_add]
    exact Nat.mul_le_mul_left 8 hcost
  | succ k ih =>
    rcases ih with hleft | ⟨hnil, htotal⟩
    · exact afforded_run hleft
    · -- nothing is left, and the end of the source is not taken twice
      change ((ofSource path source).calls k).assemble.2.Afforded _
      rw [assemble_of_nil hnil]
      exact .inr ⟨hnil, htotal⟩

/-- At any moment of any call the sections are within what the source affords. -/
theorem total_feedAll_le {n : Nat} (h : a.Afforded n) {taken rest : List (Except Error Token)}
    (hanswers : a.input.answers = taken ++ rest) :
    (a.feedAll .statement taken).2.offsets.total ≤ 8 * (n + 1) := by
  have hfilled := filled_feedAll a .statement taken
  dsimp only [Context.credit] at hfilled
  rcases h with hleft | ⟨hnil, htotal⟩
  · rw [hanswers, TokenStream.totalCost_append] at hleft
    omega
  · obtain rfl : taken = [] := (List.append_eq_nil_iff.mp (hanswers.symm.trans hnil)).1
    exact htotal

theorem total_calls_le (path : String) (source : Source) (k : Nat) :
    ((ofSource path source).calls k).offsets.total ≤ 8 * (source.byteCount + 1) := by
  have hanswers : ((ofSource path source).calls k).input.answers = [] ++ _ :=
    (List.nil_append _).symm
  exact total_feedAll_le (afforded_calls path source k) hanswers

/-- At any moment of any call the assembly is consistent with its sections. -/
theorem consistent_feedAll (path : String) (source : Source) (k : Nat)
    (taken : List (Except Error Token)) :
    (((ofSource path source).calls k).feedAll .statement taken).2.Consistent :=
  (coherent_invariant.feedAll taken
    (coherent_invariant.calls (consistent_ofSource path source).coherent k)).toConsistent

/-- Every position that the assembly has computed is a number of 64 bits: how far each section is
filled, the positions of labels, and the first position behind each declaration. -/
structure Representable (a : Assembly) : Prop where
  /-- How far each section is filled. -/
  offsets : ∀ home, a.offsets.get home < 2 ^ 64
  /-- The positions of labels. -/
  labels : ∀ name label, a.unit.labels.get? name = some label → label.offset < 2 ^ 64
  /-- The first positions behind declarations. -/
  data : ∀ name d, a.unit.data.get? name = some d → d.offset + d.length < 2 ^ 64

/-- No declaration lies behind the filled part of its section. -/
theorem Consistent.stop_le (h : a.Consistent) {name : String} {d : Declaration}
    (hd : a.unit.data.get? name = some d) : d.offset + d.length ≤ a.offsets.get d.home := by
  have hmem : d ∈ a.unit.data.declarationsIn d.home :=
    Table.mem_declarationsIn.mpr ⟨⟨name, hd⟩, rfl⟩
  have htiles := h.data_filled d.home (h.data_home name d hd)
  have hstop := htiles.stop_eq
  obtain ⟨before, after, hsplit⟩ := List.append_of_mem hmem
  rw [hsplit] at htiles hstop
  rw [htiles.offset_eq, hstop, Declaration.total_append, Declaration.total_cons]
  omega

theorem Consistent.representable (h : a.Consistent) (htotal : a.offsets.total < 2 ^ 64) :
    a.Representable where
  offsets home := (a.offsets.get_le_total home).trans_lt htotal
  labels name label hlabel :=
    (h.label_le name label hlabel).trans_lt ((a.offsets.get_le_total _).trans_lt htotal)
  data _ d hd := (h.stop_le hd).trans_lt ((a.offsets.get_le_total d.home).trans_lt htotal)

end Assembly

/-! ## Merging -/

/-- Work on a source: what it is called, where its bytes come from, and how many calls have been
made to assemble it, whether they went well or not. -/
structure SourceWork where
  /-- The path of the source. -/
  path : String
  /-- Where its bytes come from. -/
  source : Source
  /-- The number of calls. -/
  calls : Nat

namespace SourceWork

/-- What has been assembled. -/
def unit (w : SourceWork) : SourceUnit :=
  ((Assembly.ofSource w.path w.source).calls w.calls).unit

/-- What sources afford together. -/
def bound (works : List SourceWork) : Nat :=
  (works.map fun w => 8 * (w.source.byteCount + 1)).sum

theorem unit_assembled (w : SourceWork) : w.unit.Assembled :=
  ⟨w.path, w.source, w.calls, rfl⟩

theorem total_sizes_le (w : SourceWork) : w.unit.sizes.total ≤ 8 * (w.source.byteCount + 1) := by
  have hconsistent : ((Assembly.ofSource w.path w.source).calls w.calls).Consistent :=
    Assembly.consistent_feedAll w.path w.source w.calls []
  have htotal := Assembly.total_calls_le w.path w.source w.calls
  rw [hconsistent.offsets_eq] at htotal
  exact htotal

end SourceWork

namespace Program

variable {p q : Program} {u : SourceUnit}

/-- The sections of a program end below a bound when they lie one behind the other, and so do the
addresses of its labels. -/
structure Within (p : Program) (bound : Nat) : Prop where
  /-- The sizes of the sections. -/
  sizes : ∀ home, p.sizes.get home ≤ bound
  /-- The starts of the sections. -/
  starts : ∀ home, (Layout.ofSizes p.sizes).starts.get home ≤ bound
  /-- The addresses of the labels. -/
  addresses : ∀ name label, p.labels.get? name = some label →
    (Layout.ofSizes p.sizes).starts.get label.home + label.offset ≤ bound

theorem start_add_size_le (sizes : PerSection Nat) (home : Section) :
    (Layout.ofSizes sizes).starts.get home + sizes.get home ≤ sizes.total := by
  cases home <;> simp only [Layout.ofSizes, PerSection.get, PerSection.total] <;> omega

theorem WellFormed.within {bound : Nat} (h : p.WellFormed) (htotal : p.sizes.total ≤ bound) :
    p.Within bound where
  sizes home := (p.sizes.get_le_total home).trans htotal
  starts home := by
    have hle := start_add_size_le p.sizes home
    omega
  addresses name label hlabel := by
    have hend := start_add_size_le p.sizes label.home
    have hlabel := h.contents.label_le name label hlabel
    rw [← h.sizes] at hlabel
    omega

/-- A unit adds no more to a program than its own sizes. -/
theorem total_merge_le (hp : p.WellFormed) (hu : u.WellFormed) :
    (p.merge u).2.sizes.total ≤ p.sizes.total + u.sizes.total := by
  rcases merge_eq_or_merged hp hu with hsame | hmerged
  · rw [hsame]
    exact Nat.le_add_right _ _
  · have hdata := hmerged.sizes .data
    have htext := hmerged.sizes .text
    have hstring := hmerged.sizes .string
    simp only [PerSection.get] at hdata htext hstring
    simp only [PerSection.total]
    omega

/-- Units that are merged, up to the first that is refused, add no more than what their sources
afford. -/
theorem mergeAll_afforded (hp : p.Reachable) (works : List SourceWork) :
    (p.mergeAll (works.map SourceWork.unit)).2.Reachable ∧
      (p.mergeAll (works.map SourceWork.unit)).2.sizes.total ≤
        p.sizes.total + SourceWork.bound works := by
  induction works generalizing p with
  | nil => exact ⟨hp, le_rfl⟩
  | cons w rest ih =>
    have hmerged : (p.merge w.unit).2.Reachable := .merge hp w.unit_assembled
    have hle := (total_merge_le hp.wellFormed w.unit_assembled.wellFormed).trans
      (Nat.add_le_add_left w.total_sizes_le _)
    have hbound : SourceWork.bound (w :: rest) =
        8 * (w.source.byteCount + 1) + SourceWork.bound rest := List.sum_cons
    rw [List.map_cons, mergeAll, hbound]
    split
    next e q hmerge =>
      -- the units behind the one that is refused are not merged
      rw [hmerge] at hmerged hle
      dsimp only at hmerged hle ⊢
      exact ⟨hmerged, by omega⟩
    next q hmerge =>
      rw [hmerge] at hmerged hle
      dsimp only at hmerged hle
      obtain ⟨hreachable, hrest⟩ := ih hmerged
      exact ⟨hreachable, by omega⟩

/-- The sections of a source of `n` bytes never have more than `8 * (n + 1)` bytes together: at any
moment of any call, however many calls were made before, whatever they came to and whatever reads
failed. So no position leaves 64 bits when `n + 1` is below `2 ^ 61`. The sections of a program that
is merged from such units, their starts and the addresses of its labels stay within the sum of what
the sources afford, before the program is resolved and afterwards. -/
theorem sections_bounded (path : String) (source : Source) (k : Nat) (works : List SourceWork)
    {σ : Type} [SymbolProvider σ] (modules : List String) (provider : σ) :
    (∀ taken rest, ((Assembly.ofSource path source).calls k).input.answers = taken ++ rest →
      let a := (((Assembly.ofSource path source).calls k).feedAll .statement taken).2
      a.offsets.data + a.offsets.text + a.offsets.string ≤ 8 * (source.byteCount + 1) ∧
        (source.byteCount + 1 < 2 ^ 61 → a.Representable)) ∧
      let p := (({} : Program).mergeAll (works.map SourceWork.unit)).2
      let q := (p.resolve modules provider).program
      let bound := (works.map fun w => 8 * (w.source.byteCount + 1)).sum
      p.Within bound ∧ q.Within bound ∧
        ∀ layout, q.layout = some layout → layout = .ofSizes q.sizes := by
  constructor
  · intro taken rest hanswers a
    have htotal : a.offsets.total ≤ 8 * (source.byteCount + 1) :=
      Assembly.total_feedAll_le (Assembly.afforded_calls path source k) hanswers
    refine ⟨htotal, fun hn => ?_⟩
    apply (Assembly.consistent_feedAll path source k taken).representable
    exact htotal.trans_lt (by omega)
  · intro p q bound
    obtain ⟨hp, htotal⟩ := mergeAll_afforded .empty works
    have hq : q.Reachable := .resolve hp modules provider
    -- resolving leaves the sizes as they are
    have hsizes : q.sizes = p.sizes := (resolve_settles p modules provider).sizes
    have hbound : p.sizes.total ≤ bound := by
      rw [show ({} : Program).sizes.total = 0 from rfl, Nat.zero_add] at htotal
      exact htotal
    refine ⟨hp.wellFormed.within hbound, hq.wellFormed.within (hsizes ▸ hbound), ?_⟩
    intro layout hlayout
    exact (hq.partReachable.current layout hlayout).1

/-- A source of three bytes whose first read fails is assembled by the second call, to as much as it
can afford. -/
theorem sections_bounded_of_resumed :
    let source := Source.ofBytesFailingAt "ret".toUTF8.data.toList 0 "device error"
    let first : SourceWork := ⟨"main.s", source, 2⟩
    let second : SourceWork := ⟨"text.s", .ofBytes ".string\ns \"hi\"".toUTF8.data.toList, 1⟩
    let a := (Assembly.ofSource "main.s" source).calls 2
    let p := (({} : Program).mergeAll [first.unit, second.unit]).2
    source.byteCount = 3 ∧ a.offsets = ⟨0, 8 * (3 + 1), 0⟩ ∧ a.Representable ∧
      p.sizes = ⟨0, 32, 3⟩ ∧ p.Within (8 * (3 + 1) + 8 * (14 + 1)) := by
  intro source first second a p
  obtain ⟨hmoments, hwithin, -⟩ :=
    sections_bounded "main.s" source 2 [first, second] [] ({} : MemoryModules)
  obtain ⟨-, hrepresentable⟩ := hmoments [] a.input.answers rfl
  have hcount : source.byteCount = 3 := Source.byteCount_ofBytesFailingAt _ 0 _
  refine ⟨hcount, by decide +kernel, hrepresentable (by rw [hcount]; decide), by decide +kernel, ?_⟩
  have hbound : ([first, second].map fun w => 8 * (w.source.byteCount + 1)).sum =
      8 * (3 + 1) + 8 * (14 + 1) := by
    decide +kernel
  rw [← hbound]
  exact hwithin

end Program

end AsmLinker
