import PathQuery.Token.Basic
import PathQuery.Decimal.Reading
import PathQuery.Error

/-!
# Tokenizing

A text is read lexeme by lexeme; white space only separates. Each reader below looks at the
characters from the start of a lexeme on and answers with the kind of the token and the number of
further characters that belong to it, or with a fault counted from the start of the lexeme.

* `scanText`     quoted texts with their escapes;
* `scanNumber`   integers and decimals;
* `scanOperator` operators; `punctuation?` has the kinds of punctuation;
* `scanWord`     names and keywords;
* `scan`         one lexeme;
* `Token.lex`    all tokens of a text, the last of them the end of input.
-/

namespace PathQuery.Token

/-- a lexeme: its token and how many characters it has after its first -/
structure Lexeme where
  kind : Kind
  more : Nat

/-- what is wrong with a lexeme, at which character, how far from its start -/
structure Flaw where
  fault : LexFault
  character : Char
  offset : Nat

/-! ## quoted texts -/

/-- the characters that a backslash and one character stand for -/
def shortEscape? (e : Char) : Option Char :=
  if e = '"' ∨ e = '\'' ∨ e = '\\' ∨ e = '/' then some e
  else if e = 'b' then some (Char.ofNat 8)
  else if e = 'f' then some (Char.ofNat 12)
  else if e = 'n' then some '\n'
  else if e = 'r' then some '\r'
  else if e = 't' then some '\t'
  else none

/-- the value of a hexadecimal digit in either case -/
def hexValue? (c : Char) : Option Nat :=
  if c.isDigit then some (c.toNat - 48)
  else if 'a' ≤ c ∧ c ≤ 'f' then some (c.toNat - 87)
  else if 'A' ≤ c ∧ c ≤ 'F' then some (c.toNat - 55)
  else none

/-- reads `count` hexadecimal digits; `u` is the offset of the letter of the escape and `offset`
that of the next digit -/
def readHex (u : Nat) : (count offset value : Nat) → List Char → Except Flaw Nat
  | 0, _, value, _ => .ok value
  | _ + 1, _, _, [] => .error ⟨.shortEscape, 'u', u⟩
  | count + 1, offset, value, c :: rest =>
    match hexValue? c with
    | some d => readHex u count (offset + 1) (16 * value + d) rest
    | none => .error ⟨.badHexDigit, c, offset⟩

def isHighSurrogate (n : Nat) : Bool := 0xd800 ≤ n && n ≤ 0xdbff
def isLowSurrogate (n : Nat) : Bool := 0xdc00 ≤ n && n ≤ 0xdfff

def ofSurrogates (high low : Nat) : Char :=
  Char.ofNat (0x10000 + (high - 0xd800) * 1024 + (low - 0xdc00))

/-- the character of an escape by code, and how many characters the escape has after its
backslash; `start` is the offset of the backslash and the list follows the letter `u` -/
def readCode (start : Nat) (digits : List Char) : Except Flaw (Char × Nat) :=
  match readHex (start + 1) 4 (start + 2) 0 digits with
  | .error flaw => .error flaw
  | .ok high =>
    if isLowSurrogate high then .error ⟨.loneLowSurrogate, 'u', start + 1⟩
    else if isHighSurrogate high then
      match digits.drop 4 with
      | '\\' :: 'u' :: digits =>
        match readHex (start + 7) 4 (start + 8) 0 digits with
        | .error flaw => .error flaw
        | .ok low =>
          if isLowSurrogate low then .ok (ofSurrogates high low, 11)
          else .error ⟨.invalidLowSurrogate, 'u', start + 7⟩
      | _ => .error ⟨.unpairedHighSurrogate, 'u', start + 1⟩
    else .ok (Char.ofNat high, 5)

/-- the character that is spelt from `c` on, and how many characters the spelling has after `c` -/
def readSpelling (quote : Char) (start : Nat) (c : Char) (rest : List Char) :
    Except Flaw (Char × Nat) :=
  if c = '\\' then
    match rest with
    | [] => .error ⟨.unterminated, quote, 0⟩
    | e :: digits =>
      match shortEscape? e with
      | some d => .ok (d, 1)
      | none => if e = 'u' then readCode start digits else .error ⟨.unknownEscape, e, start + 1⟩
  else .ok (c, 0)

/-- the characters up to the closing quote, and the offset of that quote -/
def readText (quote : Char) (offset : Nat) : List Char → Except Flaw (List Char × Nat)
  | [] => .error ⟨.unterminated, quote, 0⟩
  | c :: rest =>
    if c = quote then .ok ([], offset)
    else
      match readSpelling quote offset c rest with
      | .error flaw => .error flaw
      | .ok (d, more) =>
        match readText quote (offset + 1 + more) (rest.drop more) with
        | .error flaw => .error flaw
        | .ok (ds, close) => .ok (d :: ds, close)
termination_by cs => cs.length
decreasing_by simp only [List.length_drop, List.length_cons]; omega

def scanText (quote : Char) (rest : List Char) : Except Flaw Lexeme :=
  match readText quote 1 rest with
  | .error flaw => .error flaw
  | .ok (value, close) => .ok ⟨.text (String.ofList value), close⟩

/-! ## numbers -/

/-- a point and digits, if digits follow the point -/
def fractionPart : List Char → List Char
  | '.' :: d :: rest => if d.isDigit then '.' :: d :: rest.takeWhile Char.isDigit else []
  | _ => []

/-- an exponent, if one begins here; `none` if it has no digits -/
def exponentPart? : List Char → Option (List Char)
  | [] => some []
  | e :: rest =>
    if e = 'e' ∨ e = 'E' then
      let (sign, digits) := match rest with
        | '+' :: ds => (['+'], ds)
        | '-' :: ds => (['-'], ds)
        | ds => ([], ds)
      let digits := digits.takeWhile Char.isDigit
      if digits.isEmpty then none else some (e :: sign ++ digits)
    else some []

/-- the integers that literals can hold, those of 64 bits with their sign -/
def inIntegerRange (n : Int) : Bool := -0x8000000000000000 ≤ n && n < 0x8000000000000000

/-- `1.` followed by no digit is an integer and a dot -/
def scanNumber (c : Char) (rest : List Char) : Except Flaw Lexeme :=
  let (negative, body) := Decimal.splitSign (c :: rest)
  let whole := body.takeWhile Char.isDigit
  if negative && whole.isEmpty then .error ⟨.bareMinus, '-', 0⟩
  else
    let afterWhole := body.dropWhile Char.isDigit
    let fraction := fractionPart afterWhole
    let afterFraction := afterWhole.drop fraction.length
    let front := (if negative then ['-'] else []) ++ whole ++ fraction
    match exponentPart? afterFraction with
    | none => .error ⟨.emptyExponent, afterFraction.headD 'e', front.length⟩
    | some exponent =>
      let lexeme := front ++ exponent
      if fraction.isEmpty && exponent.isEmpty then
        let n := Decimal.intOfText lexeme
        if inIntegerRange n then .ok ⟨.integer n, lexeme.length - 1⟩
        else .error ⟨.integerRange, c, 0⟩
      else
        match Decimal.ofText? lexeme with
        | some x =>
          if Decimal.isFinite x then .ok ⟨.float x, lexeme.length - 1⟩
          else .error ⟨.floatRange, c, 0⟩
        | none => .error ⟨.floatRange, c, 0⟩

/-! ## symbols and words -/

/-- the symbols that can be doubled or followed by `=` -/
def scanOperator (c : Char) (next : Option Char) : Except Flaw Lexeme :=
  if c = '=' then
    if next = some '=' then .ok ⟨.operator (.comparison .equal), 1⟩
    else .error ⟨.loneSymbol c, c, 0⟩
  else if c = '!' then
    if next = some '=' then .ok ⟨.operator (.comparison .notEqual), 1⟩ else .ok ⟨.not, 0⟩
  else if c = '<' then
    if next = some '=' then .ok ⟨.operator (.comparison .lessEq), 1⟩
    else .ok ⟨.operator (.comparison .less), 0⟩
  else if c = '>' then
    if next = some '=' then .ok ⟨.operator (.comparison .greaterEq), 1⟩
    else .ok ⟨.operator (.comparison .greater), 0⟩
  else if c = '&' then
    if next = some '&' then .ok ⟨.operator .and, 1⟩ else .error ⟨.loneSymbol c, c, 0⟩
  else if next = some '|' then .ok ⟨.operator .or, 1⟩
  else .error ⟨.loneSymbol c, c, 0⟩

def isOperatorSymbol (c : Char) : Bool :=
  c == '=' || c == '!' || c == '<' || c == '>' || c == '&' || c == '|'

def punctuation? (c : Char) : Option Kind :=
  if c = '[' then some .openBracket
  else if c = ']' then some .closeBracket
  else if c = '(' then some .openParen
  else if c = ')' then some .closeParen
  else if c = ',' then some .comma
  else if c = ':' then some .colon
  else if c = '?' then some .question
  else if c = '@' then some .current
  else if c = '*' then some .star
  else none

def scanDots (rest : List Char) : Except Flaw Lexeme :=
  match rest with
  | '.' :: '.' :: _ => .error ⟨.threeDots, '.', 2⟩
  | '.' :: _ => .ok ⟨.dots, 1⟩
  | _ => .ok ⟨.dot, 0⟩

def scanWord (c : Char) (rest : List Char) : Lexeme :=
  let part := rest.takeWhile isNamePart
  let word := String.ofList (c :: part)
  ⟨(keyword? word).getD (.identifier word), part.length⟩

def goesOn (rest : List Char) : Bool :=
  match rest with
  | [] => false
  | c :: _ => isNamePart c

/-! ## lexemes -/

def isSeparator (c : Char) : Bool := c == ' ' || c == '\t' || c == '\n' || c == '\r'

def scan (c : Char) (rest : List Char) : Except Flaw Lexeme :=
  if c = '\'' ∨ c = '"' then scanText c rest
  else if c.isDigit ∨ c = '-' then scanNumber c rest
  else if isOperatorSymbol c then scanOperator c rest.head?
  else if c = '$' then if goesOn rest then .ok (scanWord c rest) else .ok ⟨.root, 0⟩
  else if c = '.' then scanDots rest
  else
    match punctuation? c with
    | some kind => .ok ⟨kind, 0⟩
    | none => if isNameStart c then .ok (scanWord c rest) else .error ⟨.noToken, c, 0⟩

def lexFrom (position : Nat) : List Char → Except PathError (List Token)
  | [] => .ok [⟨.eof, position⟩]
  | c :: rest =>
    if isSeparator c then lexFrom (position + 1) rest
    else
      match scan c rest with
      | .error flaw => .error (.lex flaw.fault flaw.character (position + flaw.offset))
      | .ok lexeme =>
        match lexFrom (position + 1 + lexeme.more) (rest.drop lexeme.more) with
        | .error e => .error e
        | .ok tokens => .ok (⟨lexeme.kind, position⟩ :: tokens)
termination_by cs => cs.length
decreasing_by all_goals simp only [List.length_drop, List.length_cons]; omega

def lex (text : String) : Except PathError (List Token) := lexFrom 0 text.toList

end PathQuery.Token
