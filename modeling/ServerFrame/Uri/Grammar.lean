/-
The machine of `uri.rl`: its actions and its rules, under the names they have there. The number in `2 [0-4] digit`
is not in quotes and stands for the byte 2.
-/
import ServerFrame.Lib.Ragel

namespace ServerFrame

open Ragel Ragel.ByteSet

/-- The actions of the machine that a rule uses. -/
inductive UriAction
  | marku
  | markh
  | saveScheme
  | savePort
  | saveUserinfo
  | saveHost
  | savePath
  | saveQuery
  | saveFragment
deriving DecidableEq, Repr

namespace UriGrammar

def subDelims : ByteSet := anyOf "!$&'()*+,;="

def unreserved : ByteSet := alpha ||| digit ||| anyOf "-._~"

def pctEncoded : Rule UriAction := cat [lit "%", chars xdigit, chars xdigit]

def schemeText : Rule UriAction := cat [chars alpha, many (chars (alpha ||| digit ||| anyOf "+-."))]

def scheme : Rule UriAction := leaving .saveScheme (entering .marku schemeText)

/-! ## The authority -/

def userinfo : Rule UriAction := many (oneOf [chars unreserved, pctEncoded, chars subDelims, lit ":"])

def decOctet : Rule UriAction :=
  oneOf [chars digit, cat [chars (range '1' '9'), chars digit], cat [lit "1", times 2 (chars digit)],
    cat [chars (byte 2), chars (range '0' '4'), chars digit], cat [lit "25", chars (range '0' '5')]]

def ipv4address : Rule UriAction := cat [decOctet, lit ".", decOctet, lit ".", decOctet, lit ".", decOctet]

def h16 : Rule UriAction := between 1 4 (chars xdigit)

def ls32 : Rule UriAction := oneOf [cat [h16, lit ":", h16], ipv4address]

/-- `(h16 ":"){n}`. -/
def groups (n : Nat) : Rule UriAction := times n (cat [h16, lit ":"])

/-- `((h16 ":"){n} h16)?`. -/
def groupsBefore (n : Nat) : Rule UriAction := opt (cat [groups n, h16])

def ipv6address : Rule UriAction :=
  oneOf [cat [groups 6, ls32],
    cat [lit "::", groups 5, ls32],
    cat [opt h16, lit "::", groups 4, ls32],
    cat [groupsBefore 1, lit "::", groups 3, ls32],
    cat [groupsBefore 2, lit "::", groups 2, ls32],
    cat [groupsBefore 3, lit "::", groups 1, ls32],
    cat [groupsBefore 4, lit "::", ls32],
    cat [groupsBefore 5, lit "::", h16],
    cat [groupsBefore 6, lit "::"]]

def ipvFuture : Rule UriAction :=
  cat [lit "v", many1 (chars xdigit), lit ".", many1 (oneOf [chars unreserved, chars subDelims, lit ":"])]

def ipLiteral : Rule UriAction := cat [lit "[", oneOf [ipv6address, ipvFuture], lit "]"]

def regName : Rule UriAction := many (oneOf [chars unreserved, pctEncoded, chars subDelims])

def host : Rule UriAction := oneOf [ipLiteral, ipv4address, regName]

def port : Rule UriAction := many (chars digit)

def authority : Rule UriAction :=
  entering .markh (cat [opt (cat [leaving .saveUserinfo userinfo, lit "@"]), leaving .saveHost (entering .markh host),
    opt (cat [lit ":", leaving .savePort (entering .markh port)])])

/-! ## Path, query and fragment -/

def pchar : Rule UriAction :=
  oneOf [chars (any.diff ascii), chars unreserved, pctEncoded, chars subDelims, lit ":", lit "@"]

def segment : Rule UriAction := many pchar

def segmentNz : Rule UriAction := many1 pchar

/-- `(pchar - ":")+`: of the texts of `pchar` the difference takes away the colon alone. -/
def segmentNzNc : Rule UriAction :=
  many1 (oneOf [chars (any.diff ascii), chars unreserved, pctEncoded, chars subDelims, lit "@"])

def pathAbempty : Rule UriAction := cat [opt (cat [lit "/", segment]), many (cat [lit "/", segment])]

def pathAbsolute : Rule UriAction := cat [lit "/", opt (cat [segmentNz, many (cat [lit "/", segment])])]

def pathNoscheme : Rule UriAction := cat [segmentNzNc, many (cat [lit "/", segment])]

def pathRootless : Rule UriAction := cat [segmentNz, many (cat [lit "/", segment])]

def pathEmpty : Rule UriAction := lit ""

def path : Rule UriAction := oneOf [pathAbempty, pathAbsolute, pathNoscheme, pathRootless, pathEmpty]

/-- The text of a query or of a fragment. -/
def tail : Rule UriAction := many (oneOf [pchar, lit "/", lit "?"])

def query : Rule UriAction := leaving .saveQuery (entering .marku tail)

def fragment : Rule UriAction := leaving .saveFragment (entering .marku tail)

/-! ## The whole -/

def hierPart : Rule UriAction :=
  oneOf [cat [lit "//", authority, leaving .savePath (entering .markh pathAbempty)], pathAbsolute, pathRootless,
    pathEmpty]

def relativePart : Rule UriAction :=
  oneOf [cat [lit "//", authority, pathAbempty], pathAbsolute, pathNoscheme, pathEmpty]

def relativeRef : Rule UriAction := cat [relativePart, opt (cat [lit "?", query]), opt (cat [lit "#", fragment])]

def uri : Rule UriAction := cat [scheme, lit ":", hierPart, opt (cat [lit "?", query]), opt (cat [lit "#", fragment])]

def uriReference : Rule UriAction := oneOf [uri, relativeRef]

def main : Rule UriAction := uriReference

end UriGrammar

end ServerFrame
