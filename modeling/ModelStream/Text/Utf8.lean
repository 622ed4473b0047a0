/-
UTF-8, read piece by piece and read at once. A byte sequence that is no character is replaced by
U+FFFD, one mark for each longest piece that could still have begun a character. `push` keeps the
bytes of a character that is not complete yet for the next piece; `lossy` reads a whole byte string
by the table of well-formed sequences. `decode` reads stretch by stretch: as much as is text, then one
replacement, and so on, and keeps the bytes that the end cuts off. It reads as `push` does.
-/
namespace ModelStream.Text

abbrev Bytes := List UInt8

namespace Utf8

def replacement : Char := '\uFFFD'

/-- The number of bytes of a character that begins with `b`; zero when none does. -/
def width (b : UInt8) : Nat :=
  if b < 0x80 then 1
  else if b < 0xC2 then 0
  else if b < 0xE0 then 2
  else if b < 0xF0 then 3
  else if b < 0xF5 then 4
  else 0

/-- The second byte of a character after the lead byte: the shortest spelling only, no surrogate,
nothing above U+10FFFF. -/
def isSecond (lead b : UInt8) : Bool :=
  let low : UInt8 := if lead == 0xE0 then 0xA0 else if lead == 0xF0 then 0x90 else 0x80
  let high : UInt8 := if lead == 0xED then 0x9F else if lead == 0xF4 then 0x8F else 0xBF
  low ≤ b && b ≤ high

def isLater (b : UInt8) : Bool := 0x80 ≤ b && b ≤ 0xBF

def codePoint : Bytes → Nat
  | [] => 0
  | lead :: rest =>
    let bits := if rest.isEmpty then lead.toNat else lead.toNat % Nat.pow 2 (6 - rest.length)
    rest.foldl (fun n b => n * 64 + b.toNat % 64) bits

/-! ## Piece by piece -/

def begin (b : UInt8) : List Char × Bytes :=
  match width b with
  | 0 => ([replacement], [])
  | 1 => ([Char.ofNat b.toNat], [])
  | _ => ([], [b])

/-- The next byte after the bytes `held` of an incomplete character. -/
def step (held : Bytes) (b : UInt8) : List Char × Bytes :=
  match held with
  | [] => begin b
  | lead :: later =>
    if (if later.isEmpty then isSecond lead b else isLater b) then
      let whole := held ++ [b]
      if whole.length == width lead then ([Char.ofNat (codePoint whole)], []) else ([], whole)
    else
      let (cs, held) := begin b
      (replacement :: cs, held)

/-- Reads a piece after the bytes `held`: the characters it completes and the bytes kept. -/
def push (held : Bytes) (piece : Bytes) : List Char × Bytes :=
  let (cs, held) := piece.foldl (fun (cs, held) b =>
    let (new, held) := step held b
    (new.reverse ++ cs, held)) ([], held)
  (cs.reverse, held)

/-! ## At once -/

/-- The length of the longest piece at the front that is a character or could still begin one, and
whether it is a character. A byte that begins none counts as one. -/
def front : Bytes → Nat × Bool
  | [] => (0, false)
  | lead :: rest =>
    match width lead, rest with
    | 0, _ => (1, false)
    | 1, _ => (1, true)
    | 2, b :: _ => if isSecond lead b then (2, true) else (1, false)
    | 3, b :: c :: _ => if isSecond lead b then if isLater c then (3, true) else (2, false) else (1, false)
    | 4, b :: c :: d :: _ =>
      if isSecond lead b then
        if isLater c then if isLater d then (4, true) else (3, false) else (2, false)
      else (1, false)
    | _, b :: c :: _ => if isSecond lead b then if isLater c then (3, false) else (2, false) else (1, false)
    | _, b :: _ => if isSecond lead b then (2, false) else (1, false)
    | _, [] => (1, false)

/-- Reads on after `skip` more bytes of the piece just read. -/
def lossyFrom : Nat → Bytes → List Char
  | _, [] => []
  | skip + 1, _ :: rest => lossyFrom skip rest
  | 0, b :: rest =>
    let (n, whole) := front (b :: rest)
    let c := if whole then Char.ofNat (codePoint ((b :: rest).take n)) else replacement
    c :: lossyFrom (n - 1) rest

def lossy (bytes : Bytes) : List Char := lossyFrom 0 bytes

/-- The end of the bytes: what is kept of an incomplete character is replaced. -/
def finish (held : Bytes) : List Char := if held.isEmpty then [] else lossy held

/-- The text of a byte string that is UTF-8 throughout. -/
def decode? (bytes : Bytes) : Option String := String.fromUTF8? ⟨bytes.toArray⟩

/-! ## Stretch by stretch -/

/-- The number of bytes before the first that is part of no character, after `skip` more bytes of one. -/
def validFrom : Nat → Bytes → Nat
  | _, [] => 0
  | skip + 1, _ :: rest => validFrom skip rest + 1
  | 0, b :: rest =>
    let (n, whole) := front (b :: rest)
    if whole then validFrom (n - 1) rest + 1 else 0

def validUpTo (bytes : Bytes) : Nat := validFrom 0 bytes

/-- The number of bytes at the front that one replacement stands for. There is none where the bytes
end before it is known whether they begin a character. -/
def errorLength? : Bytes → Option Nat
  | [] => none
  | lead :: rest =>
    let (n, _) := front (lead :: rest)
    if 2 ≤ width lead && n == rest.length + 1 then none else some n

theorem front_pos (b : UInt8) (rest : Bytes) : 0 < (front (b :: rest)).1 := by
  simp only [front]
  repeat' split
  all_goals decide

theorem errorLength?_pos {bytes : Bytes} {n : Nat} (h : errorLength? bytes = some n) : 0 < n ∧ 0 < bytes.length := by
  rcases bytes with _ | ⟨b, rest⟩
  · cases h
  · have hpos := front_pos b rest
    simp only [errorLength?] at h
    split at h
    · cases h
    · cases h
      exact ⟨hpos, by simp⟩

/-- Reads the valid stretch at the front and replaces what follows it, until the rest is text or is cut off
within a character. -/
def decode (rest : Bytes) : List Char × Bytes :=
  match decode? rest with
  | some text => (text.toList, [])
  | none =>
    let valid := (decode? (rest.take (validUpTo rest))).getD ""
    let after := rest.drop (validUpTo rest)
    match _h : errorLength? after with
    | none => (valid.toList, after)
    | some n =>
      let (cs, held) := decode (after.drop n)
      (valid.toList ++ replacement :: cs, held)
termination_by rest.length
decreasing_by
  have hleft := errorLength?_pos _h
  simp only [after, List.length_drop] at hleft ⊢
  omega

end Utf8

/-- The UTF-8 bytes of a text. -/
def bytesOf (s : String) : Bytes := s.toUTF8.toList

end ModelStream.Text
