import Mathlib.Algebra.GroupWithZero.Nat

/-!
# Chratos — the JSON reader (`univalue/lib/univalue_read.cpp`, `univalue_utffilter.h`)

Consensus code asks one thing of a transaction's free text: whether `UniValue::read` takes it,
and whether the value read is an array. The reader is modelled as the code has it, token
scanner and expectation mask included, with the values of tokens and the tree left out.
-/

namespace Chratos

namespace UniValue

inductive VType where
  | VOBJ
  | VARR
  deriving DecidableEq, Repr

inductive JTokenType where
  | JTOK_ERR
  | JTOK_NONE
  | JTOK_OBJ_OPEN
  | JTOK_OBJ_CLOSE
  | JTOK_ARR_OPEN
  | JTOK_ARR_CLOSE
  | JTOK_COLON
  | JTOK_COMMA
  | JTOK_KW_NULL
  | JTOK_KW_TRUE
  | JTOK_KW_FALSE
  | JTOK_NUMBER
  | JTOK_STRING
  deriving DecidableEq, Repr

/-! ## Strings

The filter that strings are pushed through: bits of an open UTF-8 sequence still to come, the
code point gathered so far, and an open surrogate. Code points are only looked at. -/

structure StringFilter where
  isValid : Bool := true
  codepoint : Nat := 0
  state : Nat := 0
  surpair : Nat := 0

namespace StringFilter

def pushBackU (w : StringFilter) (codepoint : Nat) : StringFilter :=
  let w := if w.state ≠ 0 then { w with isValid := false } else w
  if 0xD800 ≤ codepoint ∧ codepoint < 0xDC00 then
    if w.surpair ≠ 0 then { w with isValid := false } else { w with surpair := codepoint }
  else if 0xDC00 ≤ codepoint ∧ codepoint < 0xE000 then
    if w.surpair ≠ 0 then { w with surpair := 0 } else { w with isValid := false }
  else if w.surpair ≠ 0 then { w with isValid := false } else w

def pushBack (w : StringFilter) (b : UInt8) : StringFilter :=
  let ch := b.toNat
  if w.state = 0 then
    if ch < 0x80 then w
    else if ch < 0xc0 then { w with isValid := false }
    else if ch < 0xe0 then { w with codepoint := ch % 32 * 2 ^ 6, state := 6 }
    else if ch < 0xf0 then { w with codepoint := ch % 16 * 2 ^ 12, state := 12 }
    else if ch < 0xf8 then { w with codepoint := ch % 8 * 2 ^ 18, state := 18 }
    else { w with isValid := false }
  else
    let w := if ch / 64 ≠ 2 then { w with isValid := false } else w
    let state := w.state - 6
    let codepoint := w.codepoint ||| (ch % 64 * 2 ^ state)
    let w := { w with state := state, codepoint := codepoint }
    if state = 0 then w.pushBackU codepoint else w

def finalize (w : StringFilter) : Bool := w.isValid && w.state = 0 && w.surpair = 0

end StringFilter

def isSpace (b : UInt8) : Bool := b = 0x20 || b = 0x09 || b = 0x0a || b = 0x0d

def isDigit (b : UInt8) : Bool := 0x30 ≤ b && b ≤ 0x39

def hexDigit (b : UInt8) : Option Nat :=
  if isDigit b then some (b.toNat - 0x30)
  else if 0x61 ≤ b ∧ b ≤ 0x66 then some (b.toNat - 0x61 + 10)
  else if 0x41 ≤ b ∧ b ≤ 0x46 then some (b.toNat - 0x41 + 10)
  else none

/-- The four digits of a `\u` escape. -/
def hexQuad (a b c d : UInt8) : Option Nat := do
  let a ← hexDigit a
  let b ← hexDigit b
  let c ← hexDigit c
  let d ← hexDigit d
  pure (((a * 16 + b) * 16 + c) * 16 + d)

/-- The escapes of one character: quote, backslash, slash, `b f n r t`. -/
def isSimpleEscape (e : UInt8) : Bool :=
  e ∈ ([0x22, 0x5c, 0x2f, 0x62, 0x66, 0x6e, 0x72, 0x74] : List UInt8)

/-- The string case, after the opening quote: what follows the string, or an error. A text
that ends inside the string is taken for its end. -/
def scanString : List UInt8 → StringFilter → Option (List UInt8)
  | [], w => if w.finalize then some [] else none
  | c :: rest, w =>
    if c < 0x20 then none
    else if c = 0x5c then
      match rest with
      | 0x75 :: d1 :: d2 :: d3 :: d4 :: rest =>
        match hexQuad d1 d2 d3 d4 with
        | some codepoint => scanString rest (w.pushBackU codepoint)
        | none => none
      -- every simple escape stands for a character below 0x80, which the filter passes on
      | e :: rest => if isSimpleEscape e then scanString rest (w.pushBack 0x20) else none
      | [] => none
    else if c = 0x22 then if w.finalize then some rest else none
    else scanString rest (w.pushBack c)

/-! ## Numbers -/

section

variable (raw : List UInt8)

/-- At least one digit. -/
def scanDigits : Option (List UInt8) :=
  if raw.head?.any isDigit then some (raw.dropWhile isDigit) else none

def scanFrac : Option (List UInt8) :=
  match raw with
  | 0x2e :: rest => scanDigits rest
  | _ => some raw

def scanExp : Option (List UInt8) :=
  match raw with
  | e :: rest =>
    if e = 0x65 ∨ e = 0x45 then
      scanDigits (if rest.head?.any (fun s => s = 0x2d || s = 0x2b) then rest.tail else rest)
    else some raw
  | [] => some []

/-- The number case: no leading zero, a digit after a sign, then fraction and exponent. -/
def scanNumber : Option (List UInt8) := do
  let digits := if raw.head? = some 0x2d then raw.tail else raw
  if digits.head? = some 0x30 ∧ digits.tail.head?.any isDigit then none
  else
    let raw ← scanDigits digits
    let raw ← scanFrac raw
    scanExp raw

/-! ## Tokens -/

def token (r : Option (List UInt8)) (tok : JTokenType) : JTokenType × List UInt8 :=
  match r with
  | some rest => (tok, rest)
  | none => (.JTOK_ERR, [])

/-- The tokens of one character. -/
def punctuation : List (UInt8 × JTokenType) :=
  [(0x7b, .JTOK_OBJ_OPEN), (0x7d, .JTOK_OBJ_CLOSE), (0x5b, .JTOK_ARR_OPEN),
    (0x5d, .JTOK_ARR_CLOSE), (0x3a, .JTOK_COLON), (0x2c, .JTOK_COMMA)]

/-- Keywords, numbers and strings. -/
def scanWord (c : UInt8) (rest : List UInt8) : JTokenType × List UInt8 :=
  if (c :: rest).take 4 = [0x6e, 0x75, 0x6c, 0x6c] then (.JTOK_KW_NULL, rest.drop 3)
  else if (c :: rest).take 4 = [0x74, 0x72, 0x75, 0x65] then (.JTOK_KW_TRUE, rest.drop 3)
  else if (c :: rest).take 5 = [0x66, 0x61, 0x6c, 0x73, 0x65] then
    (.JTOK_KW_FALSE, rest.drop 4)
  else if c = 0x2d ∨ isDigit c then token (scanNumber (c :: rest)) .JTOK_NUMBER
  else if c = 0x22 then token (scanString rest {}) .JTOK_STRING
  else (.JTOK_ERR, [])

/-- `getJsonToken`: the next token and the text after it. -/
def getJsonToken : JTokenType × List UInt8 :=
  match raw.dropWhile isSpace with
  | [] => (.JTOK_NONE, [])
  | c :: rest =>
    match punctuation.find? (·.1 = c) with
    | some (_, tok) => (tok, rest)
    | none => scanWord c rest

end

/-! ## The reader -/

/-- The expectation mask. -/
structure Expect where
  objName : Bool := false
  colon : Bool := false
  arrValue : Bool := false
  value : Bool := false
  notValue : Bool := false

def isValueOpen (tok : JTokenType) : Bool :=
  tok ∈ ([.JTOK_KW_NULL, .JTOK_KW_TRUE, .JTOK_KW_FALSE, .JTOK_NUMBER, .JTOK_STRING,
    .JTOK_OBJ_OPEN, .JTOK_ARR_OPEN] : List JTokenType)

/-- The tests made before a token is acted on. -/
def passExpect (e : Expect) (tok : JTokenType) : Option Expect := do
  let e ←
    if e.value then if isValueOpen tok then some { e with value := false } else none
    else if e.arrValue then
      if isValueOpen tok || tok = .JTOK_ARR_CLOSE then some { e with arrValue := false } else none
    else if e.objName then
      if tok = .JTOK_OBJ_CLOSE || tok = .JTOK_STRING then some e else none
    else if e.colon then if tok = .JTOK_COLON then some { e with colon := false } else none
    else if tok = .JTOK_COLON then none else some e
  if e.notValue then if isValueOpen tok then none else some { e with notValue := false }
  else some e

/-- The action of a token on the mask and on the stack of open values. -/
def act (lastTok tok : JTokenType) (e : Expect) (stack : List VType) :
    Option (Expect × List VType) :=
  match tok with
  | .JTOK_OBJ_OPEN => some ({ e with objName := true }, .VOBJ :: stack)
  | .JTOK_ARR_OPEN => some ({ e with arrValue := true }, .VARR :: stack)
  | .JTOK_OBJ_CLOSE => close .VOBJ
  | .JTOK_ARR_CLOSE => close .VARR
  | .JTOK_COLON =>
    if stack.head? = some .VOBJ then some ({ e with value := true }, stack) else none
  | .JTOK_COMMA =>
    match stack with
    | [] => none
    | top :: _ =>
      if lastTok = .JTOK_COMMA ∨ lastTok = .JTOK_ARR_OPEN then none
      else if top = .VOBJ then some ({ e with objName := true }, stack)
      else some ({ e with arrValue := true }, stack)
  | .JTOK_STRING =>
    if stack = [] then none
    else if e.objName then
      some ({ e with objName := false, colon := true, notValue := true }, stack)
    else some ({ e with notValue := true }, stack)
  | .JTOK_KW_NULL | .JTOK_KW_TRUE | .JTOK_KW_FALSE | .JTOK_NUMBER =>
    if stack = [] then none else some ({ e with notValue := true }, stack)
  | .JTOK_ERR | .JTOK_NONE => none
where
  close (utyp : VType) : Option (Expect × List VType) :=
    match stack with
    | [] => none
    | top :: stack =>
      if lastTok = .JTOK_COMMA ∨ utyp ≠ top then none
      else some ({ e with objName := false, notValue := true }, stack)

/-- The loop: one token a round until the stack is empty again; the text after it. Every
token takes at least one byte, so the length of the text bounds the rounds. -/
def readLoop : Nat → List UInt8 → JTokenType → Expect → List VType → Option (List UInt8)
  | 0, _, _, _, _ => none
  | fuel + 1, raw, lastTok, e, stack =>
    let t := getJsonToken raw
    match (passExpect e t.1).bind (act lastTok t.1 · stack) with
    | none => none
    | some (_, []) => some t.2
    | some (e, stack) => readLoop fuel t.2 t.1 e stack

/-- `UniValue::read`: the kind of the value read. The C string ends at the first null byte; the
outermost value is what the first token opens. -/
def read (text : List UInt8) : Option VType :=
  let raw := text.takeWhile (· ≠ 0)
  match readLoop (raw.length + 1) raw .JTOK_NONE {} [] with
  | none => none
  | some rest =>
    if (getJsonToken rest).1 ≠ .JTOK_NONE then none
    else if (getJsonToken raw).1 = .JTOK_OBJ_OPEN then some .VOBJ else some .VARR

/-- Read as a JSON array. -/
def readsArray (text : List UInt8) : Bool := read text = some .VARR

end UniValue

end Chratos
