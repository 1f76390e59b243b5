import Ratel.Json.Text

/- Go's quoted strings: `Unquote` of `strconv` with the parts of `unicode/utf8` it rests on. -/
namespace Ratel.Strconv

/-! Runes. -/

/-- The rune of `size` bytes that a string starts with. -/
def runeValue : Nat → Bytes → Nat
  | 2, b0 :: b1 :: _ => (b0.toNat - 0xc0) * 64 + (b1.toNat - 0x80)
  | 3, b0 :: b1 :: b2 :: _ => (b0.toNat - 0xe0) * 4096 + (b1.toNat - 0x80) * 64 + (b2.toNat - 0x80)
  | 4, b0 :: b1 :: b2 :: b3 :: _ => (b0.toNat - 0xf0) * 262144 + (b1.toNat - 0x80) * 4096 +
      (b2.toNat - 0x80) * 64 + (b3.toNat - 0x80)
  | _, _ => 0xfffd

def validRune (r : Nat) : Bool := r < 0xd800 ∨ 0xdfff < r ∧ r ≤ 0x10ffff

/-- `utf8.AppendRune`. -/
def encodeRune (r : Nat) : Bytes :=
  if r < 0x80 then [UInt8.ofNat r]
  else if r < 0x800 then [UInt8.ofNat (0xc0 + r / 64), UInt8.ofNat (0x80 + r % 64)]
  else if ¬ validRune r then [0xef, 0xbf, 0xbd]
  else if r < 0x10000 then
    [UInt8.ofNat (0xe0 + r / 4096), UInt8.ofNat (0x80 + r / 64 % 64), UInt8.ofNat (0x80 + r % 64)]
  else
    [UInt8.ofNat (0xf0 + r / 262144), UInt8.ofNat (0x80 + r / 4096 % 64), UInt8.ofNat (0x80 + r / 64 % 64),
      UInt8.ofNat (0x80 + r % 64)]

/-- `utf8.ValidString`; `skip` bytes of the current rune are left. -/
def validString : Nat → Bytes → Bool
  | _, [] => true
  | skip + 1, _ :: rest => validString skip rest
  | 0, b :: rest =>
    if b.toNat < 0x80 then validString 0 rest
    else
      match runeSize (b :: rest) with
      | none => false
      | some size => validString (size - 1) rest

/-- The size of the rune or invalid byte a string starts with. -/
def headSize (b : UInt8) (rest : Bytes) : Nat :=
  if b.toNat < 0x80 then 1 else (runeSize (b :: rest)).getD 1

/-! `Unquote`. -/

def unhex (b : UInt8) : Option Nat :=
  let c := b.toNat
  if 48 ≤ c ∧ c ≤ 57 then some (c - 48)
  else if 97 ≤ c ∧ c ≤ 102 then some (c - 87)
  else if 65 ≤ c ∧ c ≤ 70 then some (c - 55)
  else none

/-- Read `n` digits of base `base` onto `v`. -/
def readDigits (digit : UInt8 → Option Nat) (base : Nat) : Nat → Nat → Bytes → Option (Nat × Bytes)
  | 0, v, s => some (v, s)
  | _ + 1, _, [] => none
  | n + 1, v, b :: s => do
    let x ← digit b
    readDigits digit base n (v * base + x) s

def octalDigit (b : UInt8) : Option Nat := if 48 ≤ b.toNat ∧ b.toNat ≤ 55 then some (b.toNat - 48) else none

/-- `UnquoteChar` after a backslash: the character, whether it is a rune rather than a
    byte, and the rest. -/
def unquoteEscape (quote : UInt8) : Bytes → Option (Nat × Bool × Bytes)
  | [] => none
  | c :: s =>
    if c = 97 then some (7, false, s)
    else if c = 98 then some (8, false, s)
    else if c = 102 then some (12, false, s)
    else if c = 110 then some (10, false, s)
    else if c = 114 then some (13, false, s)
    else if c = 116 then some (9, false, s)
    else if c = 118 then some (11, false, s)
    else if c = 120 then do
      let (v, s) ← readDigits unhex 16 2 0 s
      return (v, false, s)
    else if c = 117 then do
      let (v, s) ← readDigits unhex 16 4 0 s
      if validRune v then return (v, true, s) else none
    else if c = 85 then do
      let (v, s) ← readDigits unhex 16 8 0 s
      if validRune v then return (v, true, s) else none
    else if (octalDigit c).isSome then do
      let (v, s) ← readDigits octalDigit 8 3 0 (c :: s)
      if v ≤ 255 then return (v, false, s) else none
    else if c = 92 then some (92, false, s)
    else if (c = 39 ∨ c = 34) ∧ c = quote then some (c.toNat, false, s)
    else none

/-- `UnquoteChar`. An invalid byte is read as U+FFFD. -/
def unquoteChar (quote : UInt8) : Bytes → Option (Nat × Bool × Bytes)
  | [] => none
  | c :: s =>
    if c = quote ∧ (quote = 39 ∨ quote = 34) then none
    else if 0x80 ≤ c.toNat then
      match runeSize (c :: s) with
      | none => some (0xfffd, true, s)
      | some size => some (runeValue size (c :: s), true, s.drop (size - 1))
    else if c ≠ 92 then some (c.toNat, false, s)
    else unquoteEscape quote s

def charBytes (r : Nat) (multibyte : Bool) : Bytes :=
  if r < 0x80 ∨ ¬ multibyte then [UInt8.ofNat r] else encodeRune r

/-- The loop of `unquote` up to the closing quote: the bytes read and the rest. A
    newline must be escaped. -/
def unquoteBody (quote : UInt8) : Nat → Bytes → Option (Bytes × Bytes)
  | 0, s => some ([], s)
  | fuel + 1, s =>
    match s with
    | [] => some ([], s)
    | c :: _ =>
      if c = quote then some ([], s)
      else
        match unquoteChar quote s with
        | none => none
        | some (r, multibyte, rest) =>
          if c = 10 then none
          else if quote = 39 then some (charBytes r multibyte, rest)
          else do
            let (out, rest) ← unquoteBody quote fuel rest
            return (charBytes r multibyte ++ out, rest)

/-- Whether the text between the quotes needs no unquoting. -/
def plainContent (quote : UInt8) (content : Bytes) : Bool :=
  92 ∉ content ∧ 10 ∉ content ∧ (if quote = 34 then validString 0 content
     else
       match content with
       | [] => true
       | b :: rest => headSize b rest = content.length ∧ (b.toNat < 0x80 ∨ (runeSize content).isSome))

def unquote (s : Bytes) : Except Err Bytes :=
  match s with
  | [] => errorf "invalid syntax"
  | quote :: rest =>
    let content := rest.takeWhile (· ≠ quote)
    match rest.dropWhile (· ≠ quote) with
    | [] => errorf "invalid syntax"
    | _ :: tail =>
      if quote = 96 then
        if tail = [] then .ok (content.filter (· ≠ 13)) else errorf "invalid syntax"
      else if quote ≠ 34 ∧ quote ≠ 39 then errorf "invalid syntax"
      else if plainContent quote content then
        if tail = [] then .ok content else errorf "invalid syntax"
      else
        match unquoteBody quote rest.length rest with
        | some (out, [c]) => if c = quote then .ok out else errorf "invalid syntax"
        | _ => errorf "invalid syntax"

end Ratel.Strconv
