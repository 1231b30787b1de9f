/-
`LogFormatter` (`log.cc`): a pattern is split into literals and directives, and is in error where a directive is
not known or its format has no end.
-/
import ServerFrame.Http.Request

namespace ServerFrame.Log

open Http (bytes)

/-- `isalpha(c)` in the C locale. -/
def isalpha (c : UInt8) : Bool := (65 ≤ c && c ≤ 90) || (97 ≤ c && c ≤ 122)

/-- The format items that a pattern is made of. -/
inductive FormatItem
  | string (text : List UInt8)
  | message (format : List UInt8)
  | level (format : List UInt8)
  | elapse (format : List UInt8)
  | name (format : List UInt8)
  | threadId (format : List UInt8)
  | newLine (format : List UInt8)
  | dateTime (format : List UInt8)
  | filename (format : List UInt8)
  | line (format : List UInt8)
  | tab (format : List UInt8)
  | fiberId (format : List UInt8)
  | threadName (format : List UInt8)
  deriving DecidableEq, Repr

/-- `s_format_items`. -/
def formatItems : List (List UInt8 × (List UInt8 → FormatItem)) :=
  [(bytes "m", .message), (bytes "p", .level), (bytes "r", .elapse), (bytes "c", .name), (bytes "t", .threadId),
    (bytes "n", .newLine), (bytes "d", .dateTime), (bytes "f", .filename), (bytes "l", .line), (bytes "T", .tab),
    (bytes "F", .fiberId), (bytes "N", .threadName)]

/-- What the inner loop of `init` leaves: the status, `str`, `fmt` and the pattern from `n` on. -/
structure Scan where
  status : Bool
  str : List UInt8
  fmt : List UInt8
  rest : List UInt8

/-- The inner loop of `init`, where `word` is the pattern from `i + 1` to `n`, `opened` what follows a brace
that has been met, and the last argument the pattern from `n` on. -/
def scan (word str : List UInt8) : (opened : Option (List UInt8)) → List UInt8 → Scan
  | opened, [] => { status := opened.isSome, str, fmt := [], rest := [] }
  | none, c :: cs =>
    if !isalpha c && c != 123 && c != 125 then { status := false, str := word, fmt := [], rest := c :: cs }
    else if c = 123 then scan (word ++ [c]) word (some []) cs
    else scan (word ++ [c]) (if cs = [] ∧ str = [] then word ++ [c] else str) none cs
  | some fmt, c :: cs =>
    if c = 125 then { status := false, str, fmt, rest := cs }
    else scan (word ++ [c]) (if cs = [] ∧ str = [] then word ++ [c] else str) (some (fmt ++ [c])) cs

/-- An entry of `vec`: a literal or a directive with its format. -/
inductive Piece
  | literal (str : List UInt8)
  | directive (str fmt : List UInt8)
  deriving DecidableEq, Repr

/-- `nstr` as an entry, unless it is empty. -/
def literalOf (nstr : List UInt8) : List Piece := if nstr = [] then [] else [.literal nstr]

/-- The outer loop of `init` on the pattern from `i` on: the entries of `vec`, and whether a format had no end.
Every round takes at least one byte, so that the length of the pattern is fuel enough. -/
def split : (fuel : Nat) → (nstr : List UInt8) → List UInt8 → List Piece × Bool
  | 0, nstr, _ | _ + 1, nstr, [] => (literalOf nstr, false)
  | fuel + 1, nstr, c :: cs =>
    if c ≠ 37 then split fuel (nstr ++ [c]) cs
    else if cs.head? = some 37 then split fuel (nstr ++ [37]) cs
    else
      let s := scan [] [] none cs
      if s.status then
        let (pieces, _) := split fuel nstr cs
        (.literal (bytes "<<pattern_error>>") :: pieces, true)
      else
        let (pieces, error) := split fuel [] s.rest
        (literalOf nstr ++ .directive s.str s.fmt :: pieces, error)

/-- `LogFormatter`. -/
structure LogFormatter where
  pattern : List UInt8
  items : List FormatItem
  error : Bool
  deriving DecidableEq, Repr

/-- The item of an entry, and whether it is an error. -/
def Piece.item : Piece → FormatItem × Bool
  | .literal str => (.string str, false)
  | .directive str fmt =>
    match formatItems.find? fun it => it.1 = str with
    | some it => (it.2 fmt, false)
    | none => (.string (bytes "<<error_format %" ++ str ++ bytes ">>"), true)

/-- `LogFormatter(pattern)`, with its `init`. -/
def LogFormatter.new (pattern : List UInt8) : LogFormatter :=
  let (pieces, error) := split pattern.length [] pattern
  { pattern, items := pieces.map fun p => p.item.1, error := error || pieces.any fun p => p.item.2 }

/-- `LogFormatter::isError()`. -/
def LogFormatter.isError (f : LogFormatter) : Bool := f.error

/-- A directive that is not known is an error, and stands in the text as such. -/
example : LogFormatter.new (bytes "%m%q") =
    { pattern := bytes "%m%q", items := [.message [], .string (bytes "<<error_format %q>>")],
      error := true } := by decide

end ServerFrame.Log
