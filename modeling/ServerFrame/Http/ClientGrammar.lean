/-
The machine of `httpclient_parser.rl`: its actions and its rules, under the names they have there. It reads
the header of a response or the line before a chunk.
-/
import ServerFrame.Lib.Ragel

namespace ServerFrame.Http

open Ragel Ragel.ByteSet

/-- The actions of the machine. -/
inductive ClientAction
  | mark
  | startField
  | writeField
  | startValue
  | writeContentLen
  | writeConnectionClose
  | writeValue
  | reasonPhrase
  | statusCode
  | httpVersion
  | chunkSize
  | transChunked
  | done
deriving DecidableEq, Repr

namespace ClientGrammar

def crlf : Rule ClientAction := oneOf [lit "\r\n", lit "\n"]

def ctl : ByteSet := (1#256 <<< 32 - 1#256) ||| byte 127

def tspecials : ByteSet := anyOf "()<>@,;:\\\"/[]?=\x7b\x7d \t"

def token : ByteSet := ascii.diff (ctl ||| tspecials)

/-- `/text/i`. -/
def anyCase (s : String) : Rule ClientAction :=
  cat (s.toList.map fun c => chars (byte c.toLower.toNat ||| byte c.toUpper.toNat))

/-- `(any -- CRLF)+`: a single byte holds a line break only as a line feed. -/
def reasonPhrase : Rule ClientAction := leaving .reasonPhrase (entering .mark (many1 (chars (any.diff (byte 10)))))

def statusCode : Rule ClientAction := leaving .statusCode (entering .mark (many1 (chars digit)))

def httpNumber : Rule ClientAction := cat [many1 (chars digit), lit ".", many1 (chars digit)]

def httpVersion : Rule ClientAction := leaving .httpVersion (entering .mark (cat [lit "HTTP/", httpNumber]))

def statusLine : Rule ClientAction :=
  entryGuarded (cat [httpVersion, lit " ", statusCode, lit " ", reasonPhrase]) crlf

def fieldName : Rule ClientAction := leaving .writeField (entering .startField (many1 (chars token)))

def fieldValue : Rule ClientAction := leaving .writeValue (entering .startValue (many (chars any)))

def fields : Rule ClientAction := entryGuarded (cat [fieldName, lit ":", many (chars space), fieldValue]) crlf

def contentLength : Rule ClientAction :=
  cat [leaving .writeField (entering .startField (anyCase "Content-Length")), lit ":", many (chars space),
    leaving .writeValue (leaving .writeContentLen (entering .startValue (many1 (chars digit)))), crlf]

def connClose : Rule ClientAction :=
  cat [anyCase "Connection", lit ":", many (chars space), anyCase "close", leaving .writeConnectionClose crlf]

def transferEncodingChunked : Rule ClientAction :=
  cat [leaving .writeField (entering .startField (anyCase "Transfer-Encoding")), lit ":", many (chars space),
    leaving .writeValue (entering .startValue (anyCase "chunked")), finishing .transChunked crlf]

def messageHeader : Rule ClientAction := oneOf [transferEncodingChunked, connClose, contentLength, fields]

def response : Rule ClientAction := cat [statusLine, many messageHeader, crlf]

def chunkExtVal : Rule ClientAction := many1 (chars token)

def chunkExtName : Rule ClientAction := many1 (chars token)

def chunkExtension : Rule ClientAction :=
  many (cat [lit ";", leaving .startValue (leaving .writeField (entering .startField chunkExtName)),
    leaving .writeValue (opt (cat [lit "=", entering .startValue chunkExtVal]))])

def chunkSize : Rule ClientAction := many1 (chars xdigit)

def chunkedHeader : Rule ClientAction :=
  entryGuarded (cat [leaving .chunkSize (entering .mark chunkSize), chunkExtension]) crlf

def main : Rule ClientAction := finishing .done (oneOf [response, chunkedHeader])

end ClientGrammar

end ServerFrame.Http
