import SqlTemplate.Bytes

/-!
# Reading UTF-8

Where and why a byte sequence stops being UTF-8, and the text that is left when every ill-formed
part is replaced. An ill-formed part is the longest start of a character that cannot be continued.
-/

namespace SqlTemplate.Utf8

/-- What stands at the front of a byte sequence. -/
inductive Front where
  | char (c : Char) (rest : Bytes)
  /-- `length` bytes that no continuation makes a character. -/
  | invalid (length : Nat)
  /-- The sequence ends inside a character. -/
  | cut

def isContinuation (b : UInt8) : Bool := 0x80 ≤ b && b ≤ 0xBF

private def payload (b : UInt8) : Nat := b.toNat % 64

/-- The second bytes that may follow the lead byte of a character of three bytes. -/
def second3 (lead b : UInt8) : Bool :=
  if lead == 0xE0 then 0xA0 ≤ b && b ≤ 0xBF
  else if lead == 0xED then 0x80 ≤ b && b ≤ 0x9F
  else isContinuation b

/-- The second bytes that may follow the lead byte of a character of four bytes. -/
def second4 (lead b : UInt8) : Bool :=
  if lead == 0xF0 then 0x90 ≤ b && b ≤ 0xBF
  else if lead == 0xF4 then 0x80 ≤ b && b ≤ 0x8F
  else isContinuation b

def front (lead : UInt8) (rest : Bytes) : Front :=
  if lead < 0x80 then .char (Char.ofNat lead.toNat) rest
  else if lead < 0xC2 then .invalid 1
  else if lead < 0xE0 then
    match rest with
    | [] => .cut
    | b :: rest =>
      if isContinuation b then .char (Char.ofNat (lead.toNat % 32 * 64 + payload b)) rest
      else .invalid 1
  else if lead < 0xF0 then
    match rest with
    | [] => .cut
    | b :: rest =>
      if !second3 lead b then .invalid 1
      else match rest with
        | [] => .cut
        | c :: rest =>
          if isContinuation c then
            .char (Char.ofNat ((lead.toNat % 16 * 64 + payload b) * 64 + payload c)) rest
          else .invalid 2
  else if lead < 0xF5 then
    match rest with
    | [] => .cut
    | b :: rest =>
      if !second4 lead b then .invalid 1
      else match rest with
        | [] => .cut
        | c :: rest =>
          if !isContinuation c then .invalid 2
          else match rest with
            | [] => .cut
            | d :: rest =>
              if isContinuation d then
                .char (Char.ofNat
                  (((lead.toNat % 8 * 64 + payload b) * 64 + payload c) * 64 + payload d)) rest
              else .invalid 3
  else .invalid 1

/-- The first ill-formed part of a byte sequence. -/
inductive Fault where
  | invalid (start length : Nat)
  | cut (start : Nat)
deriving DecidableEq, Repr

def Fault.message : Fault → String
  | .invalid start length => s!"invalid utf-8 sequence of {length} bytes from index {start}"
  | .cut start => s!"incomplete utf-8 byte sequence from index {start}"

/-- The first fault at or after position `start`, reading at most `fuel` characters. -/
def faultFrom : Nat → Nat → Bytes → Option Fault
  | 0, _, _ => none
  | _, _, [] => none
  | fuel + 1, start, lead :: rest =>
    match front lead rest with
    | .char _ after => faultFrom fuel (start + (rest.length + 1 - after.length)) after
    | .invalid length => some (.invalid start length)
    | .cut => some (.cut start)

def fault? (bytes : Bytes) : Option Fault := faultFrom bytes.length 0 bytes

/-- The characters of a byte sequence, each ill-formed part replaced by U+FFFD. -/
def decodeFuel : Nat → Bytes → List Char
  | 0, _ => []
  | _, [] => []
  | fuel + 1, lead :: rest =>
    match front lead rest with
    | .char c after => c :: decodeFuel fuel after
    | .invalid length => '\ufffd' :: decodeFuel fuel (rest.drop (length - 1))
    | .cut => ['\ufffd']

def lossy (bytes : Bytes) : String := String.ofList (decodeFuel bytes.length bytes)

end SqlTemplate.Utf8
