import Outdent.Text.Bytes
/-! # Tokens of a TOML document

A document is cut into tokens without judging them: an unclosed string ends where its line ends,
and whatever is neither punctuation nor quoted is an atom. Each token knows the byte offset at
which it starts and the text it covers, so the tokens put together are the document again.
-/
namespace Outdent.Toml

inductive Quotation where
  | bare
  | basic
  | literal
  | longBasic
  | longLiteral
deriving DecidableEq

inductive TokenKind where
  | dot
  | equals
  | comma
  | openBracket
  | closeBracket
  | openBrace
  | closeBrace
  | space
  | comment
  | newline
  | word (quotation : Quotation)
  | endOfText
deriving DecidableEq

structure Token where
  kind : TokenKind
  start : Nat
  text : List Char

def Token.stop (t : Token) : Nat := t.start + Text.byteLength t.text

/-- The body of a basic string up to and including its quote. It ends early in front of a line
feed and at the end of the text. -/
def basicBody : List Char → List Char × List Char
  | [] => ([], [])
  | '\\' :: '"' :: cs => let (a, b) := basicBody cs; ('\\' :: '"' :: a, b)
  | '\\' :: '\\' :: cs => let (a, b) := basicBody cs; ('\\' :: '\\' :: a, b)
  | '"' :: cs => (['"'], cs)
  | '\n' :: cs => ([], '\n' :: cs)
  | c :: cs => let (a, b) := basicBody cs; (c :: a, b)

def literalBody : List Char → List Char × List Char
  | [] => ([], [])
  | '\'' :: cs => (['\''], cs)
  | '\n' :: cs => ([], '\n' :: cs)
  | c :: cs => let (a, b) := literalBody cs; (c :: a, b)

/-- Up to two further quotes belong to the end of a long string. -/
def closingQuotes (quote : Char) : List Char → List Char × List Char
  | a :: b :: cs =>
    if a = quote then if b = quote then ([a, b], cs) else ([a], b :: cs) else ([], a :: b :: cs)
  | [a] => if a = quote then ([a], []) else ([], [a])
  | [] => ([], [])

/-- The body of a long string up to and including its three quotes. A backslash protects the
character behind it when `escapes` holds. -/
def longBody (quote : Char) (escapes : Bool) : List Char → List Char × List Char
  | [] => ([], [])
  | a :: cs =>
    if a = '\\' && escapes then
      match cs with
      | [] => ([a], [])
      | b :: cs => let (x, rest) := longBody quote escapes cs; (a :: b :: x, rest)
    else
      match cs with
      | b :: c :: cs' =>
        if a = quote && b = quote && c = quote then
          let (more, rest) := closingQuotes quote cs'
          (a :: b :: c :: more, rest)
        else let (x, rest) := longBody quote escapes cs; (a :: x, rest)
      | _ => let (x, rest) := longBody quote escapes cs; (a :: x, rest)

/-- Whether a character ends an atom. Quotes do not: an opening quote may have been forgotten. -/
def endsAtom (c : Char) : Bool := ".=,[]\x7b\x7d \t#\r\n".toList.contains c

def firstToken (c : Char) (cs : List Char) : TokenKind × List Char × List Char :=
  match c, cs with
  | '.', cs => (.dot, [c], cs)
  | '=', cs => (.equals, [c], cs)
  | ',', cs => (.comma, [c], cs)
  | '[', cs => (.openBracket, [c], cs)
  | ']', cs => (.closeBracket, [c], cs)
  | '\x7b', cs => (.openBrace, [c], cs)
  | '\x7d', cs => (.closeBrace, [c], cs)
  | '\n', cs => (.newline, [c], cs)
  | '\r', '\n' :: cs => (.newline, ['\r', '\n'], cs)
  | '\r', cs => (.newline, [c], cs)
  | '#', cs =>
    let inComment (c : Char) : Bool := c != '\r' && c != '\n'
    (.comment, c :: cs.takeWhile inComment, cs.dropWhile inComment)
  | '\'', '\'' :: '\'' :: cs =>
    let (body, rest) := longBody '\'' false cs
    (.word .longLiteral, '\'' :: '\'' :: '\'' :: body, rest)
  | '\'', cs => let (body, rest) := literalBody cs; (.word .literal, c :: body, rest)
  | '"', '"' :: '"' :: cs =>
    let (body, rest) := longBody '"' true cs
    (.word .longBasic, '"' :: '"' :: '"' :: body, rest)
  | '"', cs => let (body, rest) := basicBody cs; (.word .basic, c :: body, rest)
  | c, cs =>
    if c = ' ' || c = '\t' then
      let isSpace (c : Char) : Bool := c = ' ' || c = '\t'
      (.space, c :: cs.takeWhile isSpace, cs.dropWhile isSpace)
    else (.word .bare, c :: cs.takeWhile (!endsAtom ·), cs.dropWhile (!endsAtom ·))

/-- At most `fuel` tokens of a text that starts at byte `offset`, closed by the end of text. -/
def tokensFrom : (fuel : Nat) → (offset : Nat) → List Char → List Token
  | 0, offset, _ => [⟨.endOfText, offset, []⟩]
  | _, offset, [] => [⟨.endOfText, offset, []⟩]
  | fuel + 1, offset, c :: cs =>
    let (kind, text, rest) := firstToken c cs
    ⟨kind, offset, text⟩ :: tokensFrom fuel (offset + Text.byteLength text) rest

/-- The tokens of a document. A leading byte order mark is passed over. -/
def tokens (text : List Char) : List Token :=
  match text with
  | '\uFEFF' :: cs => tokensFrom cs.length 3 cs
  | cs => tokensFrom cs.length 0 cs

end Outdent.Toml
