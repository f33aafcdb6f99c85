import Padhai.Dns.Impl.Qname

/-!
This module contains the decompression of the names in a response.
-/

namespace Dns

open Mem

structure UncompressState where
  reader : Int
  p : Nat
  name : Bytes
  jumped : Bool
  count : Nat

/--
One turn of the byte loop of `uncompress_name`. A pointer sets `reader` to the byte before its
target, which the step that every turn ends with makes good.
-/
def uncompressName.body (buffer : Bytes) (s : UncompressState)
    : Checked (UncompressState ⊕ UncompressState) := do
  let c ← loadAt buffer s.reader
  if c = 0 then
    return .inr s
  if 192 ≤ c.toNat then
    let d ← loadAt buffer (s.reader + 1)
    let offset := c.toNat * maxNameLen + d.toNat - 49152
    return .inl { s with reader := (offset : Int) - 1 + 1, jumped := true }
  else
    let name ← store s.name s.p c
    let count := if s.jumped then s.count else s.count + 1
    return .inl { s with reader := s.reader + 1, p := s.p + 1, name, count }

def uncompressName (fuel : Nat) (block : Bytes) (reader : Nat) (buffer : Bytes)
    : Checked (Bytes × Nat) := do
  let name ← store block 0 0
  let s ← loop fuel (uncompressName.body buffer) ⟨reader, 0, name, false, 1⟩
  let name ← store s.name s.p 0
  let count := if s.jumped then s.count + 1 else s.count
  let name ← labelToDot ucharVal name
  return (name, count)

end Dns
