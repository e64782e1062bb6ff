import Routing.Text

/-!
# Percent coding

A character that may not stand in a path or a query is written as the bytes of its UTF-8 form, each byte as `%`
and two hexadecimal digits.

Decoding accepts every text. A `%` that no two hexadecimal digits follow stands for itself, and bytes that are
no UTF-8 form become U+FFFD, one for each longest run of bytes that begins a form (or for each byte that begins
none). A character beyond ASCII stands for itself and ends such a run.
-/

namespace Routing.Text

/-- The bytes of the UTF-8 form of a character. -/
def utf8Bytes (c : Char) : List Nat :=
  let n := c.toNat
  if n < 0x80 then [n]
  else if n < 0x800 then [0xC0 + n / 0x40, 0x80 + n % 0x40]
  else if n < 0x10000 then [0xE0 + n / 0x1000, 0x80 + n / 0x40 % 0x40, 0x80 + n % 0x40]
  else [0xF0 + n / 0x40000, 0x80 + n / 0x1000 % 0x40, 0x80 + n / 0x40 % 0x40, 0x80 + n % 0x40]

/-- The hexadecimal digit of value `n`, in upper case. -/
def hexUpper (n : Nat) : Char := if n < 10 then Char.ofNat (48 + n) else Char.ofNat (55 + n)

/-- A byte as `%` and two digits. -/
def percentByte (b : Nat) : Text := ['%', hexUpper (b / 16), hexUpper (b % 16)]

/-- The text with every character that `keep` does not hold of written in percent form. -/
def percentEncode (keep : Char → Bool) (t : Text) : Text :=
  t.flatMap fun c => if keep c then [c] else (utf8Bytes c).flatMap percentByte

/-- The letters, the digits and the marks `_.-~`, which stand for themselves everywhere. -/
def isUnreserved (c : Char) : Bool := c.isAlphanum || ['_', '.', '-', '~'].contains c

/-- What percent-decoding reads: a byte, written out or as an ASCII character, or a character beyond ASCII. -/
inductive Octet where
  | byte (b : Nat)
  | char (c : Char)
  deriving DecidableEq, Repr

/-- The bytes that a text writes. -/
def octets : Text → List Octet
  | '%' :: high :: low :: rest =>
    match hexValue? high, hexValue? low with
    | some h, some l => .byte (16 * h + l) :: octets rest
    | _, _ => .byte 37 :: octets (high :: low :: rest)
  | c :: rest => (if c.toNat < 128 then .byte c.toNat else .char c) :: octets rest
  | [] => []

/-- A UTF-8 form that has begun: the bits so far, how many bytes are missing, and the range of the next one. -/
structure Begun where
  bits : Nat
  missing : Nat
  least : Nat
  most : Nat
  deriving DecidableEq, Repr

/-- What a byte gives that no form before it takes: characters, or a form that begins. -/
def beginForm (b : Nat) : Text × Option Begun :=
  if b < 0x80 then ([Char.ofNat b], none)
  else if b < 0xC2 then (['\uFFFD'], none)
  else if b < 0xE0 then ([], some ⟨b - 0xC0, 1, 0x80, 0xBF⟩)
  else if b = 0xE0 then ([], some ⟨0, 2, 0xA0, 0xBF⟩)
  else if b = 0xED then ([], some ⟨0xD, 2, 0x80, 0x9F⟩)
  else if b < 0xF0 then ([], some ⟨b - 0xE0, 2, 0x80, 0xBF⟩)
  else if b = 0xF0 then ([], some ⟨0, 3, 0x90, 0xBF⟩)
  else if b < 0xF4 then ([], some ⟨b - 0xF0, 3, 0x80, 0xBF⟩)
  else if b = 0xF4 then ([], some ⟨4, 3, 0x80, 0x8F⟩)
  else (['\uFFFD'], none)

/-- What the next octet gives, and the form that is begun after it. -/
def readOctet : Option Begun → Octet → Text × Option Begun
  | none, .byte b => beginForm b
  | none, .char c => ([c], none)
  | some form, .byte b =>
    if form.least ≤ b ∧ b ≤ form.most then
      let bits := 0x40 * form.bits + (b - 0x80)
      if form.missing = 1 then ([Char.ofNat bits], none)
      else ([], some ⟨bits, form.missing - 1, 0x80, 0xBF⟩)
    else
      let (read, begun) := beginForm b
      ('\uFFFD' :: read, begun)
  | some _, .char c => (['\uFFFD', c], none)

/-- The characters that the octets give, after the form `begun`. -/
def ofOctets : Option Begun → List Octet → Text
  | none, [] => []
  | some _, [] => ['\uFFFD']
  | begun, octet :: rest => (readOctet begun octet).1 ++ ofOctets (readOctet begun octet).2 rest

/-- The text that a percent-coded text stands for. -/
def percentDecode (t : Text) : Text := ofOctets none (octets t)

end Routing.Text
