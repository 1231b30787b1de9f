/-
The machine of `http11_parser.rl`: its actions and its rules, rule by rule and under the names they
have there. Two spellings of the file are not what they look like. `(0 - 31)` and `("1"-"9")` are
differences of single characters and not ranges, so that `HTTP_CTL` is the bytes 0 and 127; and
`6( h16 ":" )` is the byte 6 followed by one group and not six groups.
-/
import ServerFrame.Lib.Ragel

namespace ServerFrame.Http

open Ragel Ragel.ByteSet

/-- The actions of the machine. -/
inductive Action
  | mark
  | startField
  | writeField
  | startValue
  | writeValue
  | requestMethod
  | requestUri
  | fragment
  | startQuery
  | queryString
  | httpVersion
  | requestPath
  | done
  | xml
  | json
deriving DecidableEq, Repr

namespace Grammar

def crlf : Rule Action := oneOf [lit "\r\n", lit "\n"]

/-! ## The URI -/

section Uri

-- `uri_relaxed`
variable (relaxed : Bool)

/-- Let through by `uri_relaxed` only. -/
def moreDelims : ByteSet := if relaxed then anyOf "\x7b\x7d^" else 0#256

def subDelims : ByteSet := anyOf "!$&'()*+,;=" ||| moreDelims relaxed

def unreserved : ByteSet := alpha ||| digit ||| anyOf "-._~"

def pctEncoded : Rule Action := cat [lit "%", chars xdigit, chars xdigit]

def pchar : Rule Action :=
  oneOf [chars (any.diff ascii), chars unreserved, pctEncoded, chars (subDelims relaxed), lit ":", lit "@"]

def fragment : Rule Action :=
  leaving .fragment (entering .mark (many (oneOf [pchar relaxed, lit "/", lit "?"])))

def query : Rule Action := leaving .queryString (many (oneOf [pchar relaxed, lit "/", lit "?"]))

def segmentNzNc : Rule Action :=
  many1 (oneOf [chars unreserved, pctEncoded, chars (subDelims relaxed), lit "@"])

def segmentNz : Rule Action := many1 (pchar relaxed)

def segment : Rule Action := many (pchar relaxed)

def pathEmpty : Rule Action := times 0 (pchar relaxed)

def pathAbempty : Rule Action := many (cat [lit "/", segment relaxed])

def pathRootless : Rule Action := cat [segmentNz relaxed, many (cat [lit "/", segment relaxed])]

def pathNoscheme : Rule Action := cat [segmentNzNc relaxed, many (cat [lit "/", segment relaxed])]

def pathAbsolute : Rule Action :=
  cat [lit "/", opt (cat [segmentNz relaxed, many (cat [lit "/", segment relaxed])])]

def regName : Rule Action := many (oneOf [chars unreserved, pctEncoded, chars (subDelims relaxed)])

def decOctet : Rule Action :=
  oneOf [chars digit, cat [chars ((anyOf "1").diff (anyOf "9")), chars digit], cat [lit "1", times 2 (chars digit)],
    cat [lit "2", chars ((anyOf "0").diff (anyOf "4")), chars digit],
    cat [lit "25", chars ((anyOf "0").diff (anyOf "5"))]]

def ipv4address : Rule Action := cat [decOctet, lit ".", decOctet, lit ".", decOctet, lit ".", decOctet]

def h16 : Rule Action := between 1 4 (chars xdigit)

def ls32 : Rule Action := oneOf [cat [h16, lit ":", h16], ipv4address]

/-- `( ( h16 ":" ){n,} h16 )?`. -/
def h16s (n : Nat) : Rule Action := opt (cat [atLeast n (cat [h16, lit ":"]), h16])

/-- `n( h16 ":" )`: the byte `n`, then the group. -/
def byteGroup (n : Nat) : Rule Action := cat [chars (byte n), cat [h16, lit ":"]]

def ipv6address : Rule Action :=
  oneOf [cat [byteGroup 6, ls32],
    cat [lit "::", byteGroup 5, ls32],
    cat [opt h16, lit "::", byteGroup 4, ls32],
    cat [h16s 1, lit "::", byteGroup 3, ls32],
    cat [h16s 2, lit "::", byteGroup 2, ls32],
    cat [h16s 3, lit "::", h16, lit ":", ls32],
    cat [h16s 4, lit "::", ls32],
    cat [h16s 5, lit "::", h16],
    cat [h16s 6, lit "::"]]

def ipvFuture : Rule Action :=
  cat [lit "v", many1 (chars xdigit), lit ".", many1 (oneOf [chars unreserved, chars (subDelims relaxed), lit ":"])]

def ipLiteral : Rule Action := cat [lit "[", oneOf [ipv6address, ipvFuture relaxed], lit "]"]

def port : Rule Action := many (chars digit)

def host : Rule Action := oneOf [ipLiteral relaxed, ipv4address, regName relaxed]

def userinfo : Rule Action :=
  many (oneOf [chars unreserved, pctEncoded, chars (subDelims relaxed), lit ":"])

def authority : Rule Action :=
  cat [opt (cat [userinfo relaxed, lit "@"]), host relaxed, opt (cat [lit ":", port])]

def scheme : Rule Action := cat [chars alpha, many (chars (alpha ||| digit ||| anyOf "+-."))]

def relativePart : Rule Action :=
  oneOf [cat [lit "//", authority relaxed, pathAbempty relaxed], pathAbsolute relaxed, pathNoscheme relaxed,
    pathEmpty relaxed]

def hierPart : Rule Action :=
  oneOf [cat [lit "//", authority relaxed, pathAbempty relaxed], pathAbsolute relaxed, pathRootless relaxed,
    pathEmpty relaxed]

/-- `(part %request_path ( "?" %start_query query )?) >mark %request_uri`. -/
def target (part : Rule Action) : Rule Action :=
  leaving .requestUri (entering .mark
    (cat [leaving .requestPath part, opt (cat [leaving .startQuery (lit "?"), query relaxed])]))

def relativeRef : Rule Action :=
  cat [target relaxed (relativePart relaxed), opt (cat [lit "#", fragment relaxed])]

def uri : Rule Action :=
  cat [scheme, lit ":", target relaxed (hierPart relaxed), opt (cat [lit "#", fragment relaxed])]

def uriReference : Rule Action := oneOf [uri relaxed, relativeRef relaxed]

end Uri

/-! ## The request -/

def method : Rule Action := leaving .requestMethod (entering .mark (between 1 20 (chars (upper ||| digit))))

def httpNumber : Rule Action := cat [lit "1.", oneOf [lit "0", lit "1"]]

def httpVersion : Rule Action := leaving .httpVersion (entering .mark (cat [lit "HTTP/", httpNumber]))

def httpCtl : ByteSet := (byte 0).diff (byte 31) ||| byte 127

def httpSeparator : ByteSet := anyOf "()<>@,;:\\\"/[]?=\x7b\x7d \t"

def lws : Rule Action := cat [opt crlf, many1 (chars (anyOf " \t"))]

def token : ByteSet := ascii.diff (httpCtl ||| httpSeparator)

def content : Rule Action := oneOf [chars (any.diff httpCtl), lws]

def fieldName : Rule Action := leaving .writeField (entering .startField (many1 (chars token)))

def fieldValue : Rule Action := leaving .writeValue (entering .startValue (many content))

def messageHeader : Rule Action := entryGuarded (cat [fieldName, lit ":", many lws, fieldValue]) crlf

section Machine

variable (relaxed : Bool)

def requestLine : Rule Action := cat [method, lit " ", uriReference relaxed, lit " ", httpVersion, crlf]

def request : Rule Action := cat [requestLine relaxed, many messageHeader, crlf]

def socketJSONStart : Rule Action := cat [lit "@", relativePart relaxed]

def socketJSONData : Rule Action :=
  finishGuarded (cat [lit "\x7b", many (chars any), lit "\x7d"]) (chars (byte 0))

def socketXMLData : Rule Action :=
  finishGuarded
    (cat [leaving .requestPath (entering .mark (cat [lit "<", many1 (chars (alpha ||| digit ||| anyOf "-."))])),
      oneOf [lit "/", chars space, lit ">"], many (chars any), lit ">"])
    (chars (byte 0))

def socketJSON : Rule Action :=
  cat [leaving .requestPath (entering .mark (socketJSONStart relaxed)), lit " ",
    finishing .json (entering .mark socketJSONData)]

def socketXML : Rule Action := finishing .xml socketXMLData

def socketRequest : Rule Action := oneOf [socketXML, socketJSON relaxed]

def main : Rule Action := finishing .done (oneOf [request relaxed, socketRequest relaxed])

end Machine

end Grammar

end ServerFrame.Http
