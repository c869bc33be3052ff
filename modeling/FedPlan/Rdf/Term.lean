/-!
# RDF terms

Terms of triple patterns and their text. A literal without a language tag always has a datatype;
the plain literal is the one of datatype `xsd:string`, and that datatype is left out of its text.
-/

namespace FedPlan

structure Variable where
  name : String
deriving DecidableEq

namespace Variable

def text (v : Variable) : String := "?" ++ v.name

/-- Variables are ordered by the code points of their names. -/
instance : LT Variable := ⟨fun a b => a.name < b.name⟩

instance (a b : Variable) : Decidable (a < b) :=
  inferInstanceAs (Decidable (a.name < b.name))

theorem lt_irrefl (a : Variable) : ¬a < a := String.lt_irrefl a.name

theorem lt_trans {a b c : Variable} (hab : a < b) (hbc : b < c) : a < c :=
  String.lt_trans hab hbc

theorem eq_of_not_lt {a b : Variable} (hab : ¬a < b) (hba : ¬b < a) : a = b := by
  have h : a.name = b.name := String.le_antisymm hba hab
  cases a
  cases b
  exact congrArg Variable.mk h

end Variable

structure Iri where
  value : String
deriving DecidableEq

def Iri.text (iri : Iri) : String := "<" ++ iri.value ++ ">"

def Iri.xsdString : Iri := ⟨"http://www.w3.org/2001/XMLSchema#string"⟩

inductive Literal where
  | tagged (value language : String)
  | typed (value : String) (datatype : Iri)
deriving DecidableEq

namespace Literal

def plain (value : String) : Literal := .typed value .xsdString

private def fourHexDigits (n : Nat) : String :=
  let digits := (Nat.toDigits 16 n).map Char.toUpper
  String.ofList (List.replicate (4 - digits.length) '0' ++ digits)

/-- Control characters, the quote and the backslash are the characters that are escaped. -/
def escapeChar (c : Char) : String :=
  if c = '\x08' then "\\b"
  else if c = '\t' then "\\t"
  else if c = '\n' then "\\n"
  else if c = '\x0c' then "\\f"
  else if c = '\r' then "\\r"
  else if c = '"' then "\\\""
  else if c = '\\' then "\\\\"
  else if c.toNat < 0x20 ∨ c.toNat = 0x7f then "\\u" ++ fourHexDigits c.toNat
  else c.toString

def quote (value : String) : String :=
  "\"" ++ String.join (value.toList.map escapeChar) ++ "\""

def text : Literal → String
  | .tagged value language => quote value ++ "@" ++ language
  | .typed value datatype =>
    if datatype = .xsdString then quote value else quote value ++ "^^" ++ datatype.text

end Literal

/-- What may stand as the subject or the object of a triple pattern. -/
inductive Term where
  | var (v : Variable)
  | iri (name : Iri)
  | blank (label : String)
  | literal (value : Literal)
deriving DecidableEq

namespace Term

def text : Term → String
  | .var v => v.text
  | .iri name => name.text
  | .blank label => "_:" ++ label
  | .literal value => value.text

/-- Blank nodes do not count as variables, so nothing is ever joined on one. -/
def var? : Term → Option Variable
  | .var v => some v
  | _ => none

end Term

inductive Predicate where
  | var (v : Variable)
  | iri (name : Iri)
deriving DecidableEq

namespace Predicate

def text : Predicate → String
  | .var v => v.text
  | .iri name => name.text

def var? : Predicate → Option Variable
  | .var v => some v
  | .iri _ => none

end Predicate

end FedPlan
