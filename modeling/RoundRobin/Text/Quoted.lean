import RoundRobin.Text.Printable

/-!
# Quotations

A text shown inside quotation marks, so that its end and its invisible characters can be seen. The
marks are single, unless the text holds a single mark and no double one. The mark in use and the
backslash are escaped by a backslash; tab, line feed and carriage return have letters; every other
character that is not printable is written by its code in as few as two, four or eight digits.
-/

namespace RoundRobin.Text

def singleMark : Char := '\x27'

def doubleMark : Char := '\x22'

def backslash : Char := '\x5c'

/-- The mark that encloses a text. -/
def markFor (cs : List Char) : Char :=
  if cs.contains singleMark && !cs.contains doubleMark then doubleMark else singleMark

/-- The code of a character in hexadecimal, with leading zeros up to the given width. -/
def hexCode (width : Nat) (c : Char) : List Char :=
  let ds := Nat.toDigits 16 c.toNat
  List.replicate (width - ds.length) '0' ++ ds

/-- The characters that stand for one character of a quoted text. -/
def escape (mark c : Char) : List Char :=
  if c = mark ∨ c = backslash then [backslash, c]
  else if c = '\t' then [backslash, 't']
  else if c = '\n' then [backslash, 'n']
  else if c = '\r' then [backslash, 'r']
  else if isPrintable c then [c]
  else if c.toNat < 0x100 then backslash :: 'x' :: hexCode 2 c
  else if c.toNat < 0x10000 then backslash :: 'u' :: hexCode 4 c
  else backslash :: 'U' :: hexCode 8 c

/-- A text in its quotation marks. -/
def quoted (text : String) : String :=
  let cs := text.toList
  let mark := markFor cs
  String.ofList (mark :: cs.flatMap (escape mark) ++ [mark])

end RoundRobin.Text
