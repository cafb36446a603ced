import Mathlib.Data.List.Basic

/-! Standard base64 encoding with padding. -/
namespace Temari.Rfc4648

/-- The character for a value below 64. -/
def sextetChar (v : Nat) : UInt8 :=
  if v < 26 then UInt8.ofNat (0x41 + v)
  else if v < 52 then UInt8.ofNat (0x61 + (v - 26))
  else if v < 62 then UInt8.ofNat (0x30 + (v - 52))
  else if v = 62 then 0x2B
  else 0x2F

def pad : UInt8 := 0x3D

def encode : List UInt8 → List UInt8
  | [] => []
  | [a] => [sextetChar (a.toNat / 4), sextetChar (a.toNat % 4 * 16), pad, pad]
  | [a, b] =>
    [sextetChar (a.toNat / 4), sextetChar (a.toNat % 4 * 16 + b.toNat / 16),
      sextetChar (b.toNat % 16 * 4), pad]
  | a :: b :: c :: rest =>
    sextetChar (a.toNat / 4) :: sextetChar (a.toNat % 4 * 16 + b.toNat / 16) ::
      sextetChar (b.toNat % 16 * 4 + c.toNat / 64) :: sextetChar (c.toNat % 64) :: encode rest

/-- The encoding up to its padding. -/
def unpadded (b : List UInt8) : List UInt8 := (encode b).takeWhile (· ≠ pad)

def padding (b : List UInt8) : List UInt8 := (encode b).dropWhile (· ≠ pad)

def alphabet : List Char := (List.range 64).map fun v => Char.ofNat (sextetChar v).toNat

/-- The text with characters outside the alphabet put in anywhere. -/
inductive Scattered : List UInt8 → List Char → Prop
  | nil : Scattered [] []
  | keep {t : List UInt8} {s : List Char} (c : Char) (hc : c ∈ alphabet) (h : Scattered t s) :
    Scattered (UInt8.ofNat c.toNat :: t) (c :: s)
  | extra {t : List UInt8} {s : List Char} (c : Char) (hc : c ∉ alphabet) (hpad : c ≠ '=')
      (h : Scattered t s) : Scattered t (c :: s)

end Temari.Rfc4648
