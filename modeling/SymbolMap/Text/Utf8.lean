/-! Text as UTF-8 octets. Offsets into a text count octets. Octets that are
no UTF-8 are read with one replacement character for each longest part that
could still have become a character. -/
namespace SymbolMap.Text

/-- The number of octets of a text. -/
def octetLength : List Char → Nat
  | [] => 0
  | c :: cs => c.utf8Size + octetLength cs

/-- What is left of a text after its first octets. An offset inside a
character passes over all of it. -/
def dropOctets : Nat → List Char → List Char
  | 0, s => s
  | _ + 1, [] => []
  | n + 1, c :: cs => dropOctets (n + 1 - c.utf8Size) cs

/-- The first octets of a text. An offset inside a character takes all of
it. -/
def takeOctets : Nat → List Char → List Char
  | 0, _ => []
  | _ + 1, [] => []
  | n + 1, c :: cs => c :: takeOctets (n + 1 - c.utf8Size) cs

/-- The part of a text between two offsets, empty when they are reversed. -/
def slice (s : List Char) (start stop : Nat) : List Char :=
  takeOctets (stop - start) (dropOctets start s)

/-- The octets of one character. -/
def encodeChar (c : Char) : List UInt8 :=
  let n := c.toNat
  if n < 0x80 then [n.toUInt8]
  else if n < 0x800 then [(0xC0 + n / 0x40).toUInt8, (0x80 + n % 0x40).toUInt8]
  else if n < 0x10000 then
    [(0xE0 + n / 0x1000).toUInt8, (0x80 + n / 0x40 % 0x40).toUInt8, (0x80 + n % 0x40).toUInt8]
  else
    [(0xF0 + n / 0x40000).toUInt8, (0x80 + n / 0x1000 % 0x40).toUInt8,
      (0x80 + n / 0x40 % 0x40).toUInt8, (0x80 + n % 0x40).toUInt8]

/-- The octets of a text. -/
def encode (s : List Char) : List UInt8 := s.flatMap encodeChar

/-- The character put where octets are no UTF-8. -/
def replacement : Char := Char.ofNat 0xFFFD

/-- A character begun but not complete: the octets still to come, the bounds
of the next one, and the bits so far. -/
structure Pending where
  more : Nat
  low : Nat
  high : Nat
  bits : Nat
deriving Repr, DecidableEq

/-- What an octet begins, if it may begin a character of several. The bounds
exclude overlong forms, surrogates and numbers that are no code points. -/
def lead? (b : UInt8) : Option Pending :=
  let n := b.toNat
  if 0xC2 ≤ n && n ≤ 0xDF then some ⟨1, 0x80, 0xBF, n - 0xC0⟩
  else if n = 0xE0 then some ⟨2, 0xA0, 0xBF, 0⟩
  else if n = 0xED then some ⟨2, 0x80, 0x9F, 0xD⟩
  else if 0xE1 ≤ n && n ≤ 0xEF then some ⟨2, 0x80, 0xBF, n - 0xE0⟩
  else if n = 0xF0 then some ⟨3, 0x90, 0xBF, 0⟩
  else if n = 0xF4 then some ⟨3, 0x80, 0x8F, 4⟩
  else if 0xF1 ≤ n && n ≤ 0xF3 then some ⟨3, 0x80, 0xBF, n - 0xF0⟩
  else none

/-- Read an octet at the start of a character. -/
def startChar (b : UInt8) : List Char × Option Pending :=
  if b.toNat < 0x80 then ([Char.ofNat b.toNat], none)
  else
    match lead? b with
    | some pending => ([], some pending)
    | none => ([replacement], none)

/-- Read one octet: the characters it completes, and what is begun after it.
An octet that cannot go on ends the character begun with a replacement and is
read anew. -/
def decodeStep (b : UInt8) : Option Pending → List Char × Option Pending
  | none => startChar b
  | some p =>
    if p.low ≤ b.toNat && b.toNat ≤ p.high then
      let bits := p.bits * 0x40 + (b.toNat - 0x80)
      if p.more ≤ 1 then ([Char.ofNat bits], none)
      else ([], some ⟨p.more - 1, 0x80, 0xBF, bits⟩)
    else
      let (chars, pending) := startChar b
      (replacement :: chars, pending)

/-- Read octets from some point on. -/
def decodeFrom : Option Pending → List UInt8 → List Char
  | none, [] => []
  | some _, [] => [replacement]
  | pending, b :: bs =>
    let (chars, pending) := decodeStep b pending
    chars ++ decodeFrom pending bs

/-- Read octets as text. -/
def decode (bytes : List UInt8) : List Char := decodeFrom none bytes

/-- Whether octets are the octets of some text. -/
def isUtf8 (bytes : List UInt8) : Bool := encode (decode bytes) == bytes

end SymbolMap.Text
