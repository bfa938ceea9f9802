import Quadword.Program.Basic

/-!
# Flat memory

Memory is a byte at every 64-bit address. Numbers take one, two, four or eight bytes, the least
significant byte first, and addresses wrap around at the end of the address space.
-/

namespace Quadword

def Width.bytes : Width → Nat
  | .byte => 1
  | .word => 2
  | .dword => 4
  | .qword => 8

/-- A byte at every address. -/
abbrev Ram := Word → BitVec 8

/-- The byte of a word with the given index, counted from the least significant one. -/
def Word.byte (v : Word) (index : Nat) : BitVec 8 := (v >>> (8 * index)).setWidth 8

namespace Ram

/-- The number in the `count` bytes from an address on. -/
def load (m : Ram) (address : Word) : Nat → Word
  | 0 => 0
  | count + 1 => m.load (address + 1) count <<< 8 ||| (m address).setWidth 64

/-- Memory after a number has been put into the `count` bytes from an address on. -/
def store (m : Ram) (address : Word) (count : Nat) (v : Word) : Ram := fun a =>
  if (a - address).toNat < count then Word.byte v (a - address).toNat else m a

/-- Reads a number of some width, filled up with zeros. -/
def read (m : Ram) (w : Width) (address : Word) : Word := m.load address w.bytes

/-- Writes the low part of a word. -/
def write (m : Ram) (w : Width) (address v : Word) : Ram := m.store address w.bytes v

end Ram

end Quadword
