/-!
# Sections

A program has three sections, always in the order data, text, string. `PerSection` holds one value
for each of them.
-/

namespace AsmLinker

/-- The parts of a program: constant data, code, and strings. -/
inductive Section where
  | data
  | text
  | string
deriving DecidableEq

namespace Section

/-- The sections in the order in which a program lays them out. -/
def all : List Section :=
  [.data, .text, .string]

/-- The name of the section, as sources and messages spell it. -/
def name : Section → String
  | .data => "data"
  | .text => "text"
  | .string => "string"

/-- The name behind a period, as a source switches to the section. -/
def directive (s : Section) : String :=
  "." ++ s.name

/-- The code of the section in the section table of an image. -/
def code : Section → Nat
  | .data => 0xFF
  | .text => 0x100
  | .string => 0x101

/-- The position of the section in the layout order. -/
def index : Section → Nat
  | .data => 0
  | .text => 1
  | .string => 2

/-- The section with the given name. -/
def ofName? : String → Option Section
  | "data" => some .data
  | "text" => some .text
  | "string" => some .string
  | _ => none

end Section

/-- One value for each section. -/
structure PerSection (α : Type) where
  /-- The value of the data section. -/
  data : α
  /-- The value of the text section. -/
  text : α
  /-- The value of the string section. -/
  string : α
deriving DecidableEq

namespace PerSection

variable {α : Type}

/-- The same value for every section. -/
def const (a : α) : PerSection α :=
  ⟨a, a, a⟩

/-- The value of a section. -/
def get (p : PerSection α) : Section → α
  | .data => p.data
  | .text => p.text
  | .string => p.string

/-- Replaces the value of a section. -/
def set (p : PerSection α) (s : Section) (a : α) : PerSection α :=
  match s with
  | .data => { p with data := a }
  | .text => { p with text := a }
  | .string => { p with string := a }

/-- The three values in layout order. -/
def toList (p : PerSection α) : List α :=
  [p.data, p.text, p.string]

@[simp] theorem get_const (a : α) (s : Section) : (const a).get s = a := by
  cases s <;> rfl

@[simp] theorem get_set_self (p : PerSection α) (s : Section) (a : α) : (p.set s a).get s = a := by
  cases s <;> rfl

@[simp] theorem get_set_of_ne (p : PerSection α) {s t : Section} (a : α) (h : t ≠ s) :
    (p.set s a).get t = p.get t := by
  cases s <;> cases t <;> first | rfl | exact absurd rfl h

end PerSection

end AsmLinker
