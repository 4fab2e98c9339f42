import Mathlib
import AsmLinker.Proofs.Table
import AsmLinker.Symbols.Exports

/-!
# The grammar of export listings

What an export listing is, said without reading it: a text is cut into rows, and a row is white
space or an entry (`Exports.IsEntry`), which is a name and a number with white space around them. A
listing is read exactly if all its rows are of this kind, every number fits into a word and no name
stands on two rows. The exports are then the entries of the rows, and otherwise the first row that
offends decides on the error (`Exports.parse_grammar`).

Reading takes the longest run of characters of a kind where the grammar asks for any run of them.
Both come to the same because no character can belong to two neighbouring runs
(`Exports.isEntry_iff`).
-/

namespace AsmLinker.Exports

/-! ## Rows -/

/-- A line without the carriage return at its end, if it has one there. -/
def withoutReturn (line : List Char) : List Char :=
  if line.getLast? = some '\r' then line.dropLast else line

/-- Lines without the carriage returns that belong to the line feeds between them. -/
def withoutReturns : List (List Char) → List (List Char)
  | [] => []
  | [last] => [last]
  | line :: next :: rest => withoutReturn line :: withoutReturns (next :: rest)

/-- The lines of a text, each up to its first hash. -/
def rows (text : String) : List (List Char) :=
  (withoutReturns (text.toList.splitOn '\n')).map fun line => line.takeWhile (· ≠ '#')

/-- White space only. -/
def Blank (cs : List Char) : Prop :=
  ∀ c ∈ cs, Text.isBlank c = true

instance : DecidablePred Blank := fun cs =>
  decidable_of_iff (cs.all Text.isBlank = true) List.all_eq_true

/-- A letter or an underscore with letters, decimal digits and underscores behind it. -/
def IsName (cs : List Char) : Prop :=
  ∃ c rest, cs = c :: rest ∧ (c.isAlpha = true ∨ c = '_') ∧
    ∀ d ∈ rest, d.isAlphanum = true ∨ d = '_'

/-- The character is this digit in the base, in either case. -/
def IsDigitOf (base : Nat) (c : Char) (d : Nat) : Prop :=
  d < base ∧ (c = Nat.digitChar d ∨ c = (Nat.digitChar d).toUpper)

/-- At least one digit, the most significant one first. -/
def Writes (base : Nat) (digits : List Char) (n : Nat) : Prop :=
  digits ≠ [] ∧ ∃ values, List.Forall₂ (IsDigitOf base) digits values ∧
    n = Nat.ofDigits base values.reverse

/-- How a number is written. -/
inductive IsNumber : List Char → Nat → Prop
  | decimal {digits : List Char} {n : Nat} (h : Writes 10 digits n) : IsNumber digits n
  | hexadecimal {x : Char} {digits : List Char} {n : Nat} (hx : x = 'x' ∨ x = 'X')
      (h : Writes 16 digits n) : IsNumber ('0' :: x :: digits) n

/-- A row with a name and its value. -/
def IsEntry (row : List Char) (name : String) (n : Nat) : Prop :=
  ∃ s₁ s₂ s₃ s₄ number, Blank s₁ ∧ Blank s₂ ∧ Blank s₃ ∧ Blank s₄ ∧
    IsName name.toList ∧ IsNumber number n ∧
    row = s₁ ++ (name.toList ++ (s₂ ++ '=' :: (s₃ ++ (number ++ s₄))))

/-- The rows make a listing: each is blank or an entry with a value that fits into a word, and no
name stands on two of them. -/
structure Good (rows : List (List Char)) : Prop where
  shape : ∀ row ∈ rows, Blank row ∨ ∃ name n, IsEntry row name n ∧ n < 2 ^ 64
  distinct : rows.Pairwise fun row row' => ∀ name n n', IsEntry row name n → ¬ IsEntry row' name n'

/-- What is wrong with a row behind others, in the words of the message. A row of the wrong shape
has no number, and a number that is too large is worse than a name that stands there already. -/
inductive Offence (before : List (List Char)) (row : List Char) : String → Prop
  | malformed (hblank : ¬ Blank row) (hentry : ¬ ∃ name n, IsEntry row name n) :
      Offence before row "malformed export"
  | tooLarge {name : String} {n : Nat} (hentry : IsEntry row name n) (hvalue : 2 ^ 64 ≤ n) :
      Offence before row "export value does not fit in 64 bits"
  | twice {name : String} {n : Nat} (hentry : IsEntry row name n) (hvalue : n < 2 ^ 64)
      (hbefore : ∃ row' ∈ before, ∃ m, IsEntry row' name m) :
      Offence before row "symbol exported twice"

/-- The error names the first row that offends, by its number, and says what is wrong with it. -/
def Reports (path : String) (rows : List (List Char)) (e : Error) : Prop :=
  ∃ before row after wording, rows = before ++ row :: after ∧ Good before ∧
    Offence before row wording ∧
    ∃ fault, e = .format fault ∧ fault.message = s!"{path}:{before.length + 1}: {wording}"

/-- The exports are the entries of the rows. -/
def Describes (rows : List (List Char)) (exports : Exports) : Prop :=
  ∀ name value, exports.get? name = some value ↔ ∃ row ∈ rows, IsEntry row name value.toNat

/-- The rows give the entries one after another, with blank rows between them. -/
inductive Renders : List (List Char) → List (String × UInt64) → Prop
  | nil : Renders [] []
  | blank {rows : List (List Char)} {entries : List (String × UInt64)} {row : List Char}
      (h : Renders rows entries) (hrow : Blank row) : Renders (rows ++ [row]) entries
  | entry {rows : List (List Char)} {entries : List (String × UInt64)} {row : List Char}
      {name : String} {value : UInt64} (h : Renders rows entries)
      (hrow : IsEntry row name value.toNat) : Renders (rows ++ [row]) (entries ++ [(name, value)])

/-! ## Lines -/

theorem withoutReturn_cons {c : Char} {line : List Char} (h : line ≠ [] ∨ c ≠ '\r') :
    withoutReturn (c :: line) = c :: withoutReturn line := by
  cases line with
  | nil =>
    obtain hc := h.resolve_left (not_not.mpr rfl)
    simp [withoutReturn, hc]
  | cons d rest =>
    rw [withoutReturn, withoutReturn, List.getLast?_cons_cons, List.dropLast_cons_cons]
    split <;> rfl

theorem splitOn_lineFeed (rest : List Char) :
    ('\n' :: rest).splitOn '\n' = [] :: rest.splitOn '\n' := by
  rw [List.splitOn, List.splitOnP_cons_eq_if_modifyHead, if_pos (by decide), List.splitOn]

theorem splitOn_cons {c : Char} (h : c ≠ '\n') {rest first : List Char} {more : List (List Char)}
    (hrest : rest.splitOn '\n' = first :: more) :
    (c :: rest).splitOn '\n' = (c :: first) :: more := by
  rw [List.splitOn] at hrest
  rw [List.splitOn, List.splitOnP_cons_eq_if_modifyHead, if_neg (by simpa using h), hrest]
  rfl

/-- If the first line is empty and there are more, the text begins with a line feed. -/
theorem exists_lineFeed {rest next : List Char} {more : List (List Char)}
    (h : rest.splitOn '\n' = [] :: next :: more) : ∃ rest', rest = '\n' :: rest' := by
  cases rest with
  | nil => cases h
  | cons c rest =>
    by_cases hc : c = '\n'
    · exact ⟨rest, by rw [hc]⟩
    · obtain ⟨first, more', hsplit⟩ := List.exists_cons_of_ne_nil (List.splitOn_ne_nil '\n' rest)
      rw [splitOn_cons hc hsplit] at h
      cases h

/-- Reading finds the lines of a text. -/
theorem lines_eq (cs : List Char) : lines cs = withoutReturns (cs.splitOn '\n') := by
  fun_induction lines cs with
  | case1 => rfl
  | case2 rest ih =>
    obtain ⟨first, more, hsplit⟩ := List.exists_cons_of_ne_nil (List.splitOn_ne_nil '\n' rest)
    rw [splitOn_cons (by decide) (splitOn_lineFeed rest), hsplit, withoutReturns, ih, hsplit]
    rfl
  | case3 rest ih =>
    obtain ⟨first, more, hsplit⟩ := List.exists_cons_of_ne_nil (List.splitOn_ne_nil '\n' rest)
    rw [splitOn_lineFeed rest, hsplit, withoutReturns, ih, hsplit]
    rfl
  | case4 c rest hreturn hfeed hnone ih =>
    -- there is always a line to which a character can be added
    obtain ⟨first, more, hsplit⟩ := List.exists_cons_of_ne_nil (List.splitOn_ne_nil '\n' rest)
    rw [hnone, hsplit] at ih
    cases more <;> cases ih
  | case5 c rest hreturn hfeed line more hlines ih =>
    obtain ⟨first, next, hsplit⟩ := List.exists_cons_of_ne_nil (List.splitOn_ne_nil '\n' rest)
    rw [hlines, hsplit] at ih
    rw [splitOn_cons hfeed hsplit]
    cases next with
    | nil =>
      cases ih
      rfl
    | cons second last =>
      -- a carriage return before a line feed was a case of its own
      have hkept : first ≠ [] ∨ c ≠ '\r' := by
        by_contra! hboth
        obtain ⟨rfl, rfl⟩ := hboth
        obtain ⟨rest', hrest⟩ := exists_lineFeed hsplit
        exact hreturn rest' rfl hrest
      obtain ⟨rfl, rfl⟩ := List.cons.inj ih
      rw [withoutReturns, withoutReturn_cons hkept]

/-! ## Digits and numbers -/

/-- A digit of either case by its code. -/
theorem isDigitOf_of_toNat {c : Char} {d : Nat} (hd : d < 16)
    (h : c.toNat = (if d < 10 then 48 + d else 87 + d) ∨
      c.toNat = if d < 10 then 48 + d else 55 + d) : IsDigitOf 16 c d := by
  have hcode : ∀ d : Fin 16,
      (Nat.digitChar d).toNat = (if d.val < 10 then 48 + d.val else 87 + d.val) ∧
      (Nat.digitChar d).toUpper.toNat = if d.val < 10 then 48 + d.val else 55 + d.val := by
    decide
  obtain ⟨hlower, hupper⟩ := hcode ⟨d, hd⟩
  refine ⟨hd, h.imp (fun hc => ?_) fun hc => ?_⟩
  · exact Char.toNat_inj.mp (hc.trans hlower.symm)
  · exact Char.toNat_inj.mp (hc.trans hupper.symm)

/-- The characters that are read as digits are the hexadecimal digits. -/
theorem digit?_eq_some_iff {c : Char} {d : Nat} :
    Numeral.digit? c = some d ↔ IsDigitOf 16 c d := by
  constructor
  · intro h
    unfold Numeral.digit? at h
    split at h
    next hrange =>
      change 48 ≤ c.toNat ∧ c.toNat ≤ 57 at hrange
      obtain rfl : c.toNat - 48 = d := Option.some.inj h
      exact isDigitOf_of_toNat (by omega) (.inl (by rw [if_pos (by omega)]; omega))
    next =>
      split at h
      next hrange =>
        change 97 ≤ c.toNat ∧ c.toNat ≤ 102 at hrange
        obtain rfl : c.toNat - 97 + 10 = d := Option.some.inj h
        exact isDigitOf_of_toNat (by omega) (.inl (by rw [if_neg (by omega)]; omega))
      next =>
        split at h
        next hrange =>
          change 65 ≤ c.toNat ∧ c.toNat ≤ 70 at hrange
          obtain rfl : c.toNat - 65 + 10 = d := Option.some.inj h
          exact isDigitOf_of_toNat (by omega) (.inr (by rw [if_neg (by omega)]; omega))
        next => cases h
  · have hall : ∀ d : Fin 16, Numeral.digit? (Nat.digitChar d) = some d.val ∧
        Numeral.digit? (Nat.digitChar d).toUpper = some d.val := by
      decide
    rintro ⟨hlt, rfl | rfl⟩
    · exact (hall ⟨d, hlt⟩).1
    · exact (hall ⟨d, hlt⟩).2

theorem isSome_digit?_iff {c : Char} :
    (Numeral.digit? c).isSome = true ↔ ∃ d, IsDigitOf 16 c d := by
  rw [Option.isSome_iff_exists]
  exact exists_congr fun _ => digit?_eq_some_iff

/-- The decimal digits are those below ten. -/
theorem isDigit_iff {c : Char} : c.isDigit = true ↔ ∃ d, IsDigitOf 10 c d := by
  constructor
  · intro h
    obtain ⟨hge, hle⟩ : 48 ≤ c.toNat ∧ c.toNat ≤ 57 := Char.isDigit_iff_toNat.mp h
    have hdigit : Numeral.digit? c = some (c.toNat - 48) := if_pos ⟨hge, hle⟩
    exact ⟨c.toNat - 48, by omega, (digit?_eq_some_iff.mp hdigit).2⟩
  · have hall : ∀ d : Fin 10, (Nat.digitChar d).isDigit = true ∧
        (Nat.digitChar d).toUpper.isDigit = true := by
      decide
    rintro ⟨d, hlt, rfl | rfl⟩
    · exact (hall ⟨d, hlt⟩).1
    · exact (hall ⟨d, hlt⟩).2

theorem IsDigitOf.digit? {base : Nat} {c : Char} {d : Nat} (hbase : base ≤ 16)
    (h : IsDigitOf base c d) : Numeral.digit? c = some d :=
  digit?_eq_some_iff.mpr ⟨h.1.trans_le hbase, h.2⟩

/-- Characters that are taken for digits write the values that are read from them. -/
theorem forall₂_isDigitOf_iff {base : Nat} {good : Char → Bool} (hbase : base ≤ 16)
    (hgood : ∀ c, good c = true ↔ ∃ d, IsDigitOf base c d) {digits : List Char}
    {values : List Nat} :
    List.Forall₂ (IsDigitOf base) digits values ↔
      (∀ c ∈ digits, good c = true) ∧ values = digits.map fun c => (Numeral.digit? c).getD 0 := by
  constructor
  · intro h
    induction h with
    | nil => exact ⟨fun _ hc => absurd hc List.not_mem_nil, rfl⟩
    | cons hdigit _ ih =>
      refine ⟨List.forall_mem_cons.mpr ⟨(hgood _).mpr ⟨_, hdigit⟩, ih.1⟩, ?_⟩
      rw [List.map_cons, hdigit.digit? hbase, ← ih.2, Option.getD_some]
  · rintro ⟨hdigits, rfl⟩
    refine List.forall₂_map_right_iff.mpr (List.forall₂_same.mpr fun c hc => ?_)
    obtain ⟨d, hd⟩ := (hgood c).mp (hdigits c hc)
    rwa [hd.digit? hbase]

/-- A number is read from its digits as it is written by them. -/
theorem value_eq_ofDigits (base : Nat) (digits : List Char) :
    Numeral.value base digits =
      Nat.ofDigits base (digits.map fun c => (Numeral.digit? c).getD 0).reverse := by
  induction digits using List.reverseRecOn with
  | nil => rfl
  | append_singleton rest c ih =>
    -- the last digit is the least significant one
    rw [Numeral.value_concat, ih, List.map_append, List.reverse_append, List.map_singleton,
      List.reverse_singleton, List.singleton_append, Nat.ofDigits_cons, Nat.mul_comm base,
      Nat.add_comm]

theorem writes_iff {base : Nat} {good : Char → Bool} (hbase : base ≤ 16)
    (hgood : ∀ c, good c = true ↔ ∃ d, IsDigitOf base c d) {digits : List Char} {n : Nat} :
    Writes base digits n ↔
      digits ≠ [] ∧ (∀ c ∈ digits, good c = true) ∧ Numeral.value base digits = n := by
  simp only [Writes, forall₂_isDigitOf_iff hbase hgood, value_eq_ofDigits, and_assoc,
    exists_and_left, exists_eq_left, eq_comm]

/-! ## Runs of characters -/

/-- A run of characters of a kind is taken whole if what follows is of another kind. -/
theorem takeWhile_run {p : Char → Bool} {run rest : List Char} (hrun : ∀ c ∈ run, p c = true)
    (hrest : ∀ c ∈ rest.head?, p c = false) :
    (run ++ rest).takeWhile p = run ∧ (run ++ rest).dropWhile p = rest := by
  rw [List.takeWhile_append_of_pos hrun, List.dropWhile_append_of_pos hrun]
  cases rest with
  | nil => exact ⟨List.append_nil run, rfl⟩
  | cons c rest =>
    have hc : p c = false := hrest c rfl
    rw [List.takeWhile_cons_of_neg (by simp [hc]), List.dropWhile_cons_of_neg (by simp [hc])]
    exact ⟨List.append_nil run, rfl⟩

theorem blank_takeWhile (cs : List Char) : Blank (cs.takeWhile Text.isBlank) :=
  fun _ hc => List.mem_takeWhile_imp hc

theorem skipBlank_append {s cs : List Char} {c : Char} (hs : Blank s)
    (hc : Text.isBlank c = false) : skipBlank (s ++ c :: cs) = c :: cs :=
  (takeWhile_run hs (by rintro _ ⟨⟩; exact hc)).2

/-- What white space is none of ends also before white space. -/
theorem stops_blank {p : Char → Bool} (hp : ∀ c, p c = true → Text.isBlank c = false)
    {s rest : List Char} (hs : Blank s) (hrest : ∀ c ∈ rest.head?, p c = false) :
    ∀ c ∈ (s ++ rest).head?, p c = false := by
  cases s with
  | nil => exact hrest
  | cons b s =>
    intro c hc
    obtain rfl : b = c := Option.some.inj hc
    by_contra hpb
    have hblank := hp b (by simpa using hpb)
    rw [hs b List.mem_cons_self] at hblank
    cases hblank

/-- What is skipped is white space. -/
theorem exists_blank (cs : List Char) : ∃ s, Blank s ∧ cs = s ++ skipBlank cs :=
  ⟨cs.takeWhile Text.isBlank, blank_takeWhile cs, List.takeWhile_append_dropWhile.symm⟩

theorem skipBlank_eq_nil_iff {cs : List Char} : skipBlank cs = [] ↔ Blank cs :=
  List.dropWhile_eq_nil_iff

/-- No character of a name or a number is white space. -/
theorem isBlank_of_isNameRest {c : Char} (h : isNameRest c = true) : Text.isBlank c = false := by
  have hrange : 48 ≤ c.toNat ∧ c.toNat ≤ 122 := by
    rcases Bool.or_eq_true_iff.mp h with h | h
    · simp only [Char.isAlphanum, Char.isAlpha, Char.isUpper, Char.isLower, Char.isDigit,
        Bool.or_eq_true, Bool.and_eq_true, decide_eq_true_eq, ge_iff_le,
        UInt32.le_iff_toNat_le] at h
      change ((65 ≤ c.toNat ∧ c.toNat ≤ 90) ∨ 97 ≤ c.toNat ∧ c.toNat ≤ 122) ∨
        48 ≤ c.toNat ∧ c.toNat ≤ 57 at h
      omega
    · obtain rfl := beq_iff_eq.mp h
      decide
  simp only [Text.isBlank, Bool.or_eq_false_iff, Bool.and_eq_false_iff, decide_eq_false_iff_not,
    beq_eq_false_iff_ne]
  omega

theorem isNameRest_of_isNameStart {c : Char} (h : isNameStart c = true) : isNameRest c = true := by
  simp only [isNameStart, isNameRest, Char.isAlphanum, Bool.or_eq_true] at h ⊢
  tauto

theorem isNameRest_of_isDigitOf {c : Char} {d : Nat} (h : IsDigitOf 16 c d) :
    isNameRest c = true := by
  have hall : ∀ d : Fin 16, isNameRest (Nat.digitChar d) = true ∧
      isNameRest (Nat.digitChar d).toUpper = true := by
    decide
  obtain ⟨hlt, rfl | rfl⟩ := h
  · exact (hall ⟨d, hlt⟩).1
  · exact (hall ⟨d, hlt⟩).2

/-- Digits are read together with the white space behind them. -/
theorem number?_eq_some_iff {base : Nat} {good : Char → Bool} (hbase : base ≤ 16)
    (hgood : ∀ c, good c = true ↔ ∃ d, IsDigitOf base c d) {cs : List Char} {n : Nat} :
    (∃ base' digits, number? base good cs = some (base', digits) ∧
        Numeral.value base' digits = n) ↔
      ∃ digits s, Writes base digits n ∧ Blank s ∧ cs = digits ++ s := by
  simp only [writes_iff hbase hgood, number?, skipBlank_eq_nil_iff]
  constructor
  · rintro ⟨base', digits, hread, hvalue⟩
    split at hread
    next h =>
      cases hread
      exact ⟨_, _, ⟨h.1, fun _ hc => List.mem_takeWhile_imp hc, hvalue⟩, h.2,
        List.takeWhile_append_dropWhile.symm⟩
    next => cases hread
  · rintro ⟨digits, s, ⟨hne, hdigits, hvalue⟩, hs, rfl⟩
    have hstop : ∀ c ∈ s.head?, good c = false := by
      rw [← List.append_nil s]
      refine stops_blank (fun c hc => ?_) hs nofun
      obtain ⟨d, hlt, hd⟩ := (hgood c).mp hc
      exact isBlank_of_isNameRest (isNameRest_of_isDigitOf ⟨hlt.trans_le hbase, hd⟩)
    obtain ⟨htake, hdrop⟩ := takeWhile_run hdigits hstop
    exact ⟨base, digits, by rw [htake, hdrop, if_pos ⟨hne, hs⟩], hvalue⟩

theorem value?_hexadecimal {x : Char} (hx : x = 'x' ∨ x = 'X') (rest : List Char) :
    value? ('0' :: x :: rest) = number? 16 (fun c => (Numeral.digit? c).isSome) rest := by
  obtain rfl | rfl := hx <;> rfl

theorem value?_decimal {cs : List Char}
    (h : ¬ ∃ x rest, (x = 'x' ∨ x = 'X') ∧ cs = '0' :: x :: rest) :
    value? cs = number? 10 Char.isDigit cs := by
  unfold value?
  split
  · exact absurd ⟨'x', _, .inl rfl, rfl⟩ h
  · exact absurd ⟨'X', _, .inr rfl, rfl⟩ h
  · rfl

/-- A number is read together with the white space behind it. -/
theorem value?_eq_some_iff {cs : List Char} {n : Nat} :
    (∃ base digits, value? cs = some (base, digits) ∧ Numeral.value base digits = n) ↔
      ∃ number s, IsNumber number n ∧ Blank s ∧ cs = number ++ s := by
  by_cases hcs : ∃ x rest, (x = 'x' ∨ x = 'X') ∧ cs = '0' :: x :: rest
  · obtain ⟨x, rest, hx, rfl⟩ := hcs
    rw [value?_hexadecimal hx, number?_eq_some_iff le_rfl fun _ => isSome_digit?_iff]
    constructor
    · rintro ⟨digits, s, hdigits, hs, rfl⟩
      exact ⟨_, s, .hexadecimal hx hdigits, hs, rfl⟩
    · rintro ⟨number, s, hnumber, hs, heq⟩
      cases hnumber with
      | decimal hdigits =>
        -- the letter would be a decimal digit or white space
        obtain ⟨-, hdigits, -⟩ := (writes_iff (by decide) fun _ => isDigit_iff).mp hdigits
        have hmem : x ∈ number ++ s := heq ▸ List.mem_cons_of_mem _ List.mem_cons_self
        rcases List.mem_append.mp hmem with hmem | hmem
        · have := hdigits x hmem
          rcases hx with rfl | rfl <;> cases this
        · have := hs x hmem
          rcases hx with rfl | rfl <;> cases this
      | hexadecimal _ hdigits =>
        obtain ⟨-, rfl⟩ := List.cons.inj (List.cons.inj heq).2
        exact ⟨_, s, hdigits, hs, rfl⟩
  · rw [value?_decimal hcs, number?_eq_some_iff (by decide) fun _ => isDigit_iff]
    constructor
    · rintro ⟨digits, s, hdigits, hs, rfl⟩
      exact ⟨digits, s, .decimal hdigits, hs, rfl⟩
    · rintro ⟨number, s, hnumber, hs, rfl⟩
      cases hnumber with
      | decimal hdigits => exact ⟨number, s, hdigits, hs, rfl⟩
      | hexadecimal hx _ => exact absurd ⟨_, _, hx, rfl⟩ hcs

theorem IsNumber.head {number : List Char} {n : Nat} (h : IsNumber number n) :
    ∃ c rest, number = c :: rest ∧ Text.isBlank c = false := by
  cases h with
  | decimal hdigits =>
    obtain ⟨hne, hdigits, -⟩ := (writes_iff (by decide) fun _ => isDigit_iff).mp hdigits
    obtain ⟨c, rest, rfl⟩ := List.exists_cons_of_ne_nil hne
    obtain ⟨d, hlt, hd⟩ := isDigit_iff.mp (hdigits c List.mem_cons_self)
    exact ⟨c, rest, rfl, isBlank_of_isNameRest (isNameRest_of_isDigitOf ⟨by omega, hd⟩)⟩
  | hexadecimal => exact ⟨'0', _, rfl, by decide⟩

/-! ## Entries -/

theorem isName_iff {cs : List Char} : IsName cs ↔
    ∃ c rest, cs = c :: rest ∧ isNameStart c = true ∧ ∀ d ∈ rest, isNameRest d = true := by
  simp only [IsName, isNameStart, isNameRest, Bool.or_eq_true, beq_iff_eq]

/-- How an entry is read, step by step. -/
theorem entry?_eq_some_iff {row : List Char} {e : Entry} :
    entry? row = some e ↔ ∃ c cs rest, skipBlank row = c :: cs ∧ isNameStart c = true ∧
      skipBlank (cs.dropWhile isNameRest) = '=' :: rest ∧
      value? (skipBlank rest) = some (e.base, e.digits) ∧
      e.name = String.ofList (c :: cs.takeWhile isNameRest) := by
  unfold entry?
  constructor
  · intro h
    split at h
    · cases h
    next c cs hrow =>
      split at h
      next hstart =>
        dsimp only at h
        split at h
        next rest hrest =>
          obtain ⟨⟨base, digits⟩, hvalue, rfl⟩ := Option.map_eq_some_iff.mp h
          exact ⟨c, cs, rest, hrow, hstart, hrest, hvalue, rfl⟩
        · cases h
      · cases h
  · rintro ⟨c, cs, rest, hrow, hstart, hrest, hvalue, hname⟩
    rw [hrow]
    dsimp only
    rw [if_pos hstart, hrest]
    change (value? (skipBlank rest)).map _ = some e
    rw [hvalue, Option.map_some, ← hname]

/-- What is read from a row is its entry. -/
theorem isEntry_iff {row : List Char} {name : String} {n : Nat} :
    IsEntry row name n ↔
      ∃ e, entry? row = some e ∧ e.name = name ∧ Numeral.value e.base e.digits = n := by
  simp only [entry?_eq_some_iff]
  constructor
  · rintro ⟨s₁, s₂, s₃, s₄, number, hs₁, hs₂, hs₃, hs₄, hname, hnumber, hrow⟩
    obtain ⟨c, more, hname, hstart, hmore⟩ := isName_iff.mp hname
    obtain ⟨base, digits, hvalue, rfl⟩ := value?_eq_some_iff.mpr ⟨number, s₄, hnumber, hs₄, rfl⟩
    -- each run of characters ends where the next one begins
    have hskip₁ : skipBlank row = c :: (more ++ (s₂ ++ '=' :: (s₃ ++ (number ++ s₄)))) := by
      rw [hrow, hname]
      exact skipBlank_append hs₁ (isBlank_of_isNameRest (isNameRest_of_isNameStart hstart))
    have hstop : ∀ d ∈ (s₂ ++ '=' :: (s₃ ++ (number ++ s₄))).head?, isNameRest d = false :=
      stops_blank (fun _ => isBlank_of_isNameRest) hs₂ (by rintro _ ⟨⟩; decide)
    obtain ⟨htake, hdrop⟩ := takeWhile_run hmore hstop
    have hskip₂ : skipBlank (s₂ ++ '=' :: (s₃ ++ (number ++ s₄))) =
        '=' :: (s₃ ++ (number ++ s₄)) :=
      skipBlank_append hs₂ (by decide)
    have hskip₃ : skipBlank (s₃ ++ (number ++ s₄)) = number ++ s₄ := by
      obtain ⟨d, rest, rfl, hd⟩ := hnumber.head
      exact skipBlank_append hs₃ hd
    refine ⟨⟨name, base, digits⟩, ⟨c, _, s₃ ++ (number ++ s₄), hskip₁, hstart, ?_, ?_, ?_⟩, rfl,
      rfl⟩
    · rw [hdrop, hskip₂]
    · rw [hskip₃, hvalue]
    · rw [htake, ← hname, String.ofList_toList]
  · rintro ⟨e, ⟨c, cs, rest, hrow, hstart, hrest, hvalue, hname⟩, rfl, rfl⟩
    obtain ⟨s₁, hs₁, hrow'⟩ := exists_blank row
    obtain ⟨s₂, hs₂, hrest'⟩ := exists_blank (cs.dropWhile isNameRest)
    obtain ⟨s₃, hs₃, hvalue'⟩ := exists_blank rest
    obtain ⟨number, s₄, hnumber, hs₄, hnumber'⟩ := value?_eq_some_iff.mp ⟨_, _, hvalue, rfl⟩
    have htoList : e.name.toList = c :: cs.takeWhile isNameRest := by
      rw [hname, String.toList_ofList]
    refine ⟨s₁, s₂, s₃, s₄, number, hs₁, hs₂, hs₃, hs₄, ?_, hnumber, ?_⟩
    · rw [htoList]
      exact isName_iff.mpr ⟨c, _, rfl, hstart, fun _ hd => List.mem_takeWhile_imp hd⟩
    · rw [htoList, ← hnumber', ← hvalue', ← hrest, ← hrest', List.cons_append,
        List.takeWhile_append_dropWhile, ← hrow, ← hrow']

/-- A row has at most one entry. -/
theorem IsEntry.unique {row : List Char} {name name' : String} {n n' : Nat}
    (h : IsEntry row name n) (h' : IsEntry row name' n') : name = name' ∧ n = n' := by
  obtain ⟨e, hread, rfl, rfl⟩ := isEntry_iff.mp h
  obtain ⟨e', hread', rfl, rfl⟩ := isEntry_iff.mp h'
  obtain rfl : e = e' := Option.some.inj (hread.symm.trans hread')
  exact ⟨rfl, rfl⟩

theorem IsEntry.not_blank {row : List Char} {name : String} {n : Nat} (h : IsEntry row name n) :
    ¬ Blank row := by
  intro hblank
  obtain ⟨e, hread, -, -⟩ := isEntry_iff.mp h
  obtain ⟨c, cs, rest, hrow, -⟩ := entry?_eq_some_iff.mp hread
  rw [skipBlank_eq_nil_iff.mpr hblank] at hrow
  cases hrow

/-! ## Reading rows one after another -/

section AddRow

variable {before : List (List Char)} {row : List Char} {exports : Exports}

theorem Good.concat_blank (h : Good before) (hrow : Blank row) : Good (before ++ [row]) where
  shape := by
    intro row' hmem
    rcases List.mem_append.mp hmem with hmem | hmem
    · exact h.shape row' hmem
    · exact .inl (List.mem_singleton.mp hmem ▸ hrow)
  distinct := by
    refine List.pairwise_append.mpr ⟨h.distinct, List.pairwise_singleton _ _, ?_⟩
    intro row' _ last hlast name n n' _ hentry
    obtain rfl := List.mem_singleton.mp hlast
    exact hentry.not_blank hrow

theorem Describes.concat_blank (h : Describes before exports) (hrow : Blank row) :
    Describes (before ++ [row]) exports := by
  intro name value
  have hlast : ¬ IsEntry row name value.toNat := fun hentry => hentry.not_blank hrow
  simp only [h name value, List.mem_append, List.mem_singleton, or_and_right, exists_or,
    exists_eq_left, hlast, or_false]

/-- The names that the exports have are those of the rows. -/
theorem Describes.mem_keys_iff (h : Describes before exports) (hgood : Good before)
    {name : String} : name ∈ exports.keys ↔ ∃ row ∈ before, ∃ n, IsEntry row name n := by
  simp only [Table.mem_keys_iff, ← Table.get?_eq_some_iff, h name]
  constructor
  · rintro ⟨value, row, hmem, hentry⟩
    exact ⟨row, hmem, _, hentry⟩
  · rintro ⟨row, hmem, n, hentry⟩
    -- the value of a row of a listing is that of a word
    obtain hblank | ⟨name', n', hentry', hlt⟩ := hgood.shape row hmem
    · exact absurd hblank hentry.not_blank
    · obtain ⟨rfl, rfl⟩ := hentry.unique hentry'
      exact ⟨UInt64.ofNat n, row, hmem, by rwa [UInt64.toNat_ofNat_of_lt' hlt]⟩

variable {name : String} {value : UInt64}

theorem Good.concat_entry (h : Good before) (hrow : IsEntry row name value.toNat)
    (hnew : ¬ ∃ row' ∈ before, ∃ n, IsEntry row' name n) : Good (before ++ [row]) where
  shape := by
    intro row' hmem
    rcases List.mem_append.mp hmem with hmem | hmem
    · exact h.shape row' hmem
    · obtain rfl := List.mem_singleton.mp hmem
      exact .inr ⟨name, value.toNat, hrow, value.toNat_lt⟩
  distinct := by
    refine List.pairwise_append.mpr ⟨h.distinct, List.pairwise_singleton _ _, ?_⟩
    intro row' hmem last hlast name' n n' hentry hentry'
    obtain rfl := List.mem_singleton.mp hlast
    obtain ⟨rfl, -⟩ := hrow.unique hentry'
    exact hnew ⟨row', hmem, n, hentry⟩

theorem Describes.concat_entry (h : Describes before exports) (hgood : Good before)
    (hrow : IsEntry row name value.toNat) (hnew : name ∉ exports.keys) :
    Describes (before ++ [row]) (exports.insert name value) := by
  intro name' value'
  rw [Table.get?_insert_of_not_mem value hnew]
  simp only [List.mem_append, List.mem_singleton, or_and_right, exists_or, exists_eq_left]
  split
  next hsame =>
    subst hsame
    constructor
    · rintro ⟨⟩
      exact .inr hrow
    · rintro (⟨row', hmem, hentry⟩ | hentry)
      · exact absurd ((h.mem_keys_iff hgood).mpr ⟨row', hmem, _, hentry⟩) hnew
      · exact congrArg some (UInt64.toNat_inj.mp (hrow.unique hentry).2)
  next hother =>
    have hlast : ¬ IsEntry row name' value'.toNat :=
      fun hentry => hother (hentry.unique hrow).1
    rw [h name' value', or_iff_left hlast]

end AddRow

/-- Reading goes on behind the rows that are read already, up to the first one that offends. -/
theorem addLines_cases (path : String) (lines : List (List Char)) {before : List (List Char)}
    {exports : Exports} (hgood : Good before) (hexports : Describes before exports) :
    (∃ exports', addLines path (before.length + 1) exports lines = .ok exports' ∧
        Good (before ++ lines.map uncomment) ∧
        Describes (before ++ lines.map uncomment) exports') ∨
      ∃ e, addLines path (before.length + 1) exports lines = .error e ∧
        Reports path (before ++ lines.map uncomment) e := by
  induction lines generalizing before exports with
  | nil =>
    rw [List.map_nil, List.append_nil]
    exact .inl ⟨exports, rfl, hgood, hexports⟩
  | cons line rest ih =>
    rw [addLines, List.map_cons]
    -- the row joins those before it
    have hnext : before.length + 1 + 1 = (before ++ [uncomment line]).length + 1 := by simp
    rw [hnext]
    have hmoved : before ++ uncomment line :: rest.map uncomment =
        before ++ [uncomment line] ++ rest.map uncomment := by simp
    split
    next hblank =>
      have hblank : Blank (uncomment line) := List.all_eq_true.mp hblank
      rw [hmoved]
      exact ih (hgood.concat_blank hblank) (hexports.concat_blank hblank)
    next hblank =>
      have hblank : ¬ Blank (uncomment line) := fun h => hblank (List.all_eq_true.mpr h)
      split
      next hread =>
        refine .inr ⟨_, rfl, before, _, _, _, rfl, hgood, .malformed hblank ?_, _, rfl,
          by simp [FormatFault.message, String.append_assoc, toString]⟩
        rintro ⟨name, n, hentry⟩
        obtain ⟨e, hread', -⟩ := isEntry_iff.mp hentry
        cases hread.symm.trans hread'
      next e hread =>
        have hentry : IsEntry (uncomment line) e.name (Numeral.value e.base e.digits) :=
          isEntry_iff.mpr ⟨e, hread, rfl, rfl⟩
        split
        next hword =>
          have hlarge : 2 ^ 64 ≤ Numeral.value e.base e.digits := by
            by_contra! hlt
            have hsome := Numeral.word?_eq_some_iff.mpr (UInt64.toNat_ofNat_of_lt' hlt).symm
            cases hword.symm.trans hsome
          exact .inr ⟨_, rfl, before, _, _, _, rfl, hgood, .tooLarge hentry hlarge, _, rfl,
            by simp [FormatFault.message, String.append_assoc, toString]⟩
        next value hword =>
          rw [Numeral.word?_eq_some_iff.mp hword] at hentry
          split
          next hcontains =>
            have hbefore := (hexports.mem_keys_iff hgood).mp (Table.contains_eq_true.mp hcontains)
            exact .inr ⟨_, rfl, before, _, _, _, rfl, hgood, .twice hentry value.toNat_lt hbefore,
              _, rfl, by simp [FormatFault.message, String.append_assoc, toString]⟩
          next hcontains =>
            have hnew : e.name ∉ exports.keys := fun h => hcontains (Table.contains_eq_true.mpr h)
            rw [hmoved]
            exact ih (hgood.concat_entry hentry (mt (hexports.mem_keys_iff hgood).mpr hnew))
              (hexports.concat_entry hgood hentry hnew)

theorem good_nil : Good [] :=
  ⟨nofun, .nil⟩

theorem describes_nil : Describes [] .empty := by
  intro name value
  simp [Table.get?_eq_some_iff]

/-- Rows among which one offends are no listing. -/
theorem Offence.not_good {before after : List (List Char)} {row : List Char} {wording : String}
    (h : Offence before row wording) : ¬ Good (before ++ row :: after) := by
  intro hgood
  have hrow := hgood.shape row (List.mem_append_right _ List.mem_cons_self)
  cases h with
  | malformed hblank hentry =>
    obtain hrow | ⟨name, n, hrow, -⟩ := hrow
    · exact hblank hrow
    · exact hentry ⟨name, n, hrow⟩
  | tooLarge hentry hvalue =>
    obtain hrow | ⟨name, n, hrow, hlt⟩ := hrow
    · exact hentry.not_blank hrow
    · have := (hentry.unique hrow).2
      omega
  | twice hentry _ hbefore =>
    obtain ⟨row', hmem, m, hentry'⟩ := hbefore
    have hcross := (List.pairwise_append.mp hgood.distinct).2.2
    exact hcross row' hmem row List.mem_cons_self _ _ _ hentry' hentry

/-- Rows that give every entry of a table once are a listing of the table. -/
theorem Renders.good_describes {rows : List (List Char)} {entries : List (String × UInt64)}
    (h : Renders rows entries) (hnodup : (entries.map Prod.fst).Nodup) :
    Good rows ∧ Describes rows ⟨entries, hnodup⟩ := by
  induction h with
  | nil => exact ⟨good_nil, describes_nil⟩
  | blank _ hrow ih =>
    obtain ⟨hgood, hdescribes⟩ := ih hnodup
    exact ⟨hgood.concat_blank hrow, hdescribes.concat_blank hrow⟩
  | @entry rows entries row name value _ hrow ih =>
    have hsplit := hnodup
    rw [List.map_append, List.map_singleton, List.nodup_append] at hsplit
    obtain ⟨hgood, hdescribes⟩ := ih hsplit.1
    have hnew : name ∉ (⟨entries, hsplit.1⟩ : Exports).keys :=
      fun hmem => hsplit.2.2 name hmem name List.mem_cons_self rfl
    have hinsert : (⟨entries, hsplit.1⟩ : Exports).insert name value =
        ⟨entries ++ [(name, value)], hnodup⟩ :=
      Table.eq_of_entries (Table.entries_insert_of_not_mem value hnew)
    rw [← hinsert]
    exact ⟨hgood.concat_entry hrow (mt (hdescribes.mem_keys_iff hgood).mpr hnew),
      hdescribes.concat_entry hgood hrow hnew⟩

theorem rows_eq (text : String) : rows text = (lines text.toList).map uncomment := by
  rw [lines_eq]
  rfl

/-- A text is read exactly if its rows make a listing. The exports are then its entries, and so
the table that the rows were written from, whatever their order. Otherwise the error is about the
first row that offends. -/
theorem parse_grammar (path text : String) :
    ((∃ exports, parse path text = .ok exports) ↔ Good (rows text)) ∧
      (∀ exports, parse path text = .ok exports → Describes (rows text) exports) ∧
      (∀ e, parse path text = .error e → Reports path (rows text) e) ∧
      ∀ entries (written : Exports), Renders (rows text) entries →
        entries.Perm written.entries →
        ∃ exports, parse path text = .ok exports ∧
          ∀ name, exports.get? name = written.get? name := by
  have hcases := addLines_cases path (lines text.toList) good_nil describes_nil
  rw [List.nil_append, ← rows_eq] at hcases
  change (∃ exports, parse path text = .ok exports ∧ _) ∨ ∃ e, parse path text = .error e ∧ _
    at hcases
  have hgood : (∃ exports, parse path text = .ok exports) ↔ Good (rows text) := by
    rcases hcases with ⟨exports, hparse, hgood, -⟩ | ⟨e, hparse, hreports⟩
    · exact iff_of_true ⟨exports, hparse⟩ hgood
    · obtain ⟨before, row, after, wording, hrows, -, hoffence, -⟩ := hreports
      refine iff_of_false ?_ (hrows ▸ hoffence.not_good)
      rintro ⟨exports, hparse'⟩
      cases hparse.symm.trans hparse'
  have hdescribes : ∀ exports, parse path text = .ok exports → Describes (rows text) exports := by
    intro exports hparse
    rcases hcases with ⟨exports', hparse', -, hexports⟩ | ⟨e, hparse', -⟩
    · cases hparse.symm.trans hparse'
      exact hexports
    · cases hparse.symm.trans hparse'
  refine ⟨hgood, hdescribes, ?_, ?_⟩
  · intro e hparse
    rcases hcases with ⟨exports', hparse', -⟩ | ⟨e', hparse', hreports⟩
    · cases hparse.symm.trans hparse'
    · cases hparse.symm.trans hparse'
      exact hreports
  · intro entries written hrenders hperm
    have hnodup : (entries.map Prod.fst).Nodup := (hperm.map Prod.fst).nodup_iff.mpr written.nodup
    obtain ⟨hrows, hentries⟩ := hrenders.good_describes hnodup
    obtain ⟨exports, hparse⟩ := hgood.mpr hrows
    refine ⟨exports, hparse, fun name => ?_⟩
    rw [← Table.get?_eq_of_perm (t := ⟨entries, hnodup⟩) hperm name]
    ext value
    rw [hdescribes exports hparse name value, hentries name value]

/-- Two rows out of order with a comment between them, and the same name again behind them. -/
theorem parse_grammar_of_repeated_name :
    (∃ exports, parse "std" "b\t= 0X0f \r\n# none\na=015" = .ok exports ∧
        exports.get? "a" = some 15 ∧ exports.get? "b" = some 15 ∧ exports.get? "c" = none) ∧
      Reports "std" (rows "b\t= 0X0f \r\n# none\na=015\nb=1")
        (.format (.exportedTwice "std" 4)) := by
  have hrows : rows "b\t= 0X0f \r\n# none\na=015" =
      [] ++ ["b\t= 0X0f ".toList] ++ [[]] ++ ["a=015".toList] := by
    decide
  have hfirst : IsEntry "b\t= 0X0f ".toList "b" 15 :=
    isEntry_iff.mpr ⟨⟨"b", 16, ['0', 'f']⟩, by decide⟩
  have hlast : IsEntry "a=015".toList "a" 15 :=
    isEntry_iff.mpr ⟨⟨"a", 10, ['0', '1', '5']⟩, by decide⟩
  have hrenders : Renders (rows "b\t= 0X0f \r\n# none\na=015") [("b", 15), ("a", 15)] := by
    rw [hrows]
    exact .entry (.blank (.entry .nil hfirst) (by decide)) hlast
  obtain ⟨exports, hparse, hget⟩ := (parse_grammar "std" "b\t= 0X0f \r\n# none\na=015").2.2.2 _
    (.ofList [("a", 15), ("b", 15)]) hrenders (by decide)
  refine ⟨⟨exports, hparse, ?_⟩, (parse_grammar "std" _).2.2.1 _ (by decide)⟩
  rw [hget, hget, hget]
  decide

end AsmLinker.Exports
