/-!
Reading UTF-8. Bytes fall apart into characters and faults; a fault ends where the bytes stop being
the beginning of a character.
-/
namespace BuildScript.Utf8

inductive Piece where
  | char (c : Char)
  /-- So many bytes that begin no character. -/
  | invalid (size : Nat)
  /-- The bytes end within a character. -/
  | incomplete
deriving Repr, DecidableEq

def isContinuation (b : UInt8) : Bool := 0x80 ≤ b && b ≤ 0xbf

/-- The second byte is bounded further where the first one leaves overlong forms, surrogates or code
points past the last one. -/
def isSecondOf (first b : UInt8) : Bool :=
  if first == 0xe0 then 0xa0 ≤ b && b ≤ 0xbf
  else if first == 0xed then 0x80 ≤ b && b ≤ 0x9f
  else if first == 0xf0 then 0x90 ≤ b && b ≤ 0xbf
  else if first == 0xf4 then 0x80 ≤ b && b ≤ 0x8f
  else isContinuation b

def compose (lead : Nat) (more : List UInt8) : Piece :=
  .char (Char.ofNat (more.foldl (fun n b => n * 64 + b.toNat % 64) lead))

/-- What begins with the byte `b`, and how many of the bytes behind it belong to that. -/
def step (b : UInt8) (rest : List UInt8) : Piece × Nat :=
  if b < 0x80 then (compose b.toNat [], 0)
  else if 0xc2 ≤ b && b ≤ 0xdf then
    match rest with
    | [] => (.incomplete, 0)
    | c :: _ => if isSecondOf b c then (compose (b.toNat % 32) [c], 1) else (.invalid 1, 0)
  else if 0xe0 ≤ b && b ≤ 0xef then
    match rest with
    | [] => (.incomplete, 0)
    | c :: rest =>
      if isSecondOf b c then
        match rest with
        | [] => (.incomplete, 1)
        | d :: _ =>
          if isContinuation d then (compose (b.toNat % 16) [c, d], 2) else (.invalid 2, 1)
      else (.invalid 1, 0)
  else if 0xf0 ≤ b && b ≤ 0xf4 then
    match rest with
    | [] => (.incomplete, 0)
    | c :: rest =>
      if isSecondOf b c then
        match rest with
        | [] => (.incomplete, 1)
        | d :: rest =>
          if isContinuation d then
            match rest with
            | [] => (.incomplete, 2)
            | e :: _ =>
              if isContinuation e then (compose (b.toNat % 8) [c, d, e], 3) else (.invalid 3, 2)
          else (.invalid 2, 1)
      else (.invalid 1, 0)
  else (.invalid 1, 0)

def pieces : List UInt8 → List Piece
  | [] => []
  | b :: rest => (step b rest).1 :: pieces (rest.drop (step b rest).2)
termination_by bytes => bytes.length
decreasing_by simp only [List.length_drop, List.length_cons]; omega

/-- Where bytes stop being UTF-8, and how many of them are at fault; none if more bytes could mend
it. -/
structure Fault where
  validUpTo : Nat
  size : Option Nat
deriving Repr, DecidableEq

def Fault.message (f : Fault) : String :=
  match f.size with
  | some n =>
    "invalid utf-8 sequence of " ++ toString n ++ " bytes from index " ++ toString f.validUpTo
  | none => "incomplete utf-8 byte sequence from index " ++ toString f.validUpTo

def assemble (offset : Nat) : List Piece → Except Fault (List Char)
  | [] => .ok []
  | .char c :: rest => (assemble (offset + c.utf8Size) rest).map (c :: ·)
  | .invalid n :: _ => .error ⟨offset, some n⟩
  | .incomplete :: _ => .error ⟨offset, none⟩

def decode (bytes : List UInt8) : Except Fault (List Char) := assemble 0 (pieces bytes)

/-- Reads on past faults, each of which leaves a replacement character. -/
def decodeLossy (bytes : List UInt8) : List Char :=
  (pieces bytes).map fun
    | .char c => c
    | .invalid _ | .incomplete => '\ufffd'

def encode (text : String) : List UInt8 := text.toUTF8.toList

end BuildScript.Utf8
