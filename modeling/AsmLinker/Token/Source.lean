/-!
# Byte sources

A source delivers bytes one at a time. A read may also fail: a failure is one of the signals that
the source delivers, and reading can go on behind it. One byte can be pushed back and is then
delivered first.

`Source.pending` lists what is still to be delivered. Reading takes its head (`next_of_pending`), and
pushing back what was just read restores it (`pending_unread`).
-/

namespace AsmLinker

/-- What a read delivers. -/
inductive Signal where
  | byte (b : UInt8)
  /-- The read fails. -/
  | fault (cause : String)
deriving DecidableEq

/-- A source of bytes with one byte of push-back. -/
structure Source where
  /-- The byte that was pushed back. -/
  back : Option UInt8 := none
  /-- What the source has not delivered yet. -/
  rest : List Signal
deriving DecidableEq

namespace Source

/-- The source of a sequence of bytes, in which no read fails. -/
def ofBytes (bytes : List UInt8) : Source :=
  { rest := bytes.map .byte }

/-- The source of a sequence of bytes in which the read fails once that would deliver the byte at a
position, or the end of the bytes. Behind the end there is no such read. -/
def ofBytesFailingAt (bytes : List UInt8) (position : Nat) (cause : String) : Source :=
  if position ≤ bytes.length then
    { rest := (bytes.take position).map .byte ++ .fault cause :: (bytes.drop position).map .byte }
  else
    ofBytes bytes

/-- Everything that is still to be delivered. -/
def pending (s : Source) : List Signal :=
  match s.back with
  | some b => .byte b :: s.rest
  | none => s.rest

/-- Reads the next signal; there is none at the end of the source. -/
def next (s : Source) : Option Signal × Source :=
  match s.back with
  | some b => (some (.byte b), { s with back := none })
  | none =>
    match s.rest with
    | [] => (none, s)
    | signal :: rest => (some signal, { s with rest })

/-- Pushes a byte back. -/
def unread (s : Source) (b : UInt8) : Source :=
  { s with back := some b }

@[simp] theorem pending_mk_none (rest : List Signal) : pending ⟨none, rest⟩ = rest := rfl

@[simp] theorem pending_mk_some (b : UInt8) (rest : List Signal) :
    pending ⟨some b, rest⟩ = .byte b :: rest := rfl

@[simp] theorem pending_ofBytes (bytes : List UInt8) :
    (ofBytes bytes).pending = bytes.map .byte := rfl

/-- A read takes the first pending signal, and then no byte is pushed back. -/
theorem next_of_pending {s : Source} {signal : Signal} {rest : List Signal}
    (h : s.pending = signal :: rest) : s.next = (some signal, ⟨none, rest⟩) := by
  obtain ⟨back, tail⟩ := s
  cases back with
  | some b =>
    simp only [pending_mk_some, List.cons.injEq] at h
    simp [next, h.1, h.2]
  | none =>
    simp only [pending_mk_none] at h
    simp [next, h]

/-- At the end a read delivers nothing and changes nothing. -/
theorem next_of_pending_nil {s : Source} (h : s.pending = []) : s.next = (none, s) := by
  obtain ⟨back, tail⟩ := s
  cases back with
  | some b => simp at h
  | none =>
    simp only [pending_mk_none] at h
    simp [next, h]

/-- Pushing back while nothing is pushed back puts the byte in front. -/
theorem pending_unread {s : Source} (b : UInt8) (h : s.back = none) :
    (s.unread b).pending = .byte b :: s.pending := by
  obtain ⟨back, tail⟩ := s
  simp only at h
  subst h
  rfl

/-- A read does not lengthen what is pending. -/
theorem length_pending_next (s : Source) :
    s.next.2.pending.length = s.pending.length - 1 := by
  cases h : s.pending with
  | nil => simp [next_of_pending_nil h, h]
  | cons signal rest => simp [next_of_pending h]

/-- After a read no byte is pushed back. -/
theorem back_next (s : Source) : s.next.2.back = none := by
  obtain ⟨back, tail⟩ := s
  cases back with
  | some b => rfl
  | none => cases tail <;> rfl

end Source

end AsmLinker
