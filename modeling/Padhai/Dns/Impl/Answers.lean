import Padhai.Dns.Impl.Uncompress

/-!
This module contains the part of `send_data_to_dns` that reads and prints a response. The pointer
`resource` of a record is an offset in the packet buffer, and so is the reader.
-/

namespace Dns

open Mem

structure ResRecord where
  name : Bytes
  resource : Nat
  rdata : Bytes

namespace RData

def type (buffer : Bytes) (resource : Nat) : Checked Nat := ntohsAt buffer resource

def dataLen (buffer : Bytes) (resource : Nat) : Checked Nat := ntohsAt buffer (resource + 8)

end RData

def copyRdata (buffer : Bytes) (reader : Nat) : (left j : Nat) → (rdata : Bytes) → Checked Bytes
  | 0, _, rdata => .ok rdata
  | left + 1, j, rdata => do
    let c ← load buffer (reader + j)
    let rdata ← store rdata j c
    copyRdata buffer reader left (j + 1) rdata

def readAnswer (malloc : Malloc) (fuel : Nat) (buffer : Bytes) (i reader : Nat)
    : Checked (ResRecord × Nat) := do
  let (name, stop) ← uncompressName fuel (malloc.block (2 * i) maxNameLen) reader buffer
  -- Only the store of the name's pointer can find that `answers` has no element `i`.
  if recordLen ≤ i then
    throw (.outOfRange recordLen i)
  let resource := reader + stop
  let reader := resource + sizeofRData
  let type ← RData.type buffer resource
  if type = 1 then
    let dataLen ← RData.dataLen buffer resource
    let rdata ← copyRdata buffer reader dataLen 0 (malloc.block (2 * i + 1) dataLen)
    let rdata ← store rdata dataLen 0
    return (⟨name, resource, rdata⟩, reader + dataLen)
  else
    let (rdata, stop) ←
      uncompressName fuel (malloc.block (2 * i + 1) maxNameLen) reader buffer
    return (⟨name, resource, rdata⟩, reader + stop)

def readAnswers (malloc : Malloc) (fuel : Nat) (buffer : Bytes)
    : (left reader : Nat) → (answers : List ResRecord) → Checked (Nat × List ResRecord)
  | 0, reader, answers => .ok (reader, answers)
  | left + 1, reader, answers => do
    let (answer, reader) ← readAnswer malloc fuel buffer answers.length reader
    readAnswers malloc fuel buffer left reader (answers ++ [answer])

def loadLong (a : Bytes) : Checked (BitVec 64) := do
  let bytes ← loadRange a 8
  return bytes.foldr (fun c x => x <<< 8 ||| c.toBitVec.setWidth 64) 0

def ntohl (x : BitVec 32) : BitVec 32 :=
  x.extractLsb' 0 8 ++ x.extractLsb' 8 8 ++ x.extractLsb' 16 8 ++ x.extractLsb' 24 8

def inetNtoa (x : BitVec 32) : Bytes :=
  [x.extractLsb' 0 8, x.extractLsb' 8 8, x.extractLsb' 16 8, x.extractLsb' 24 8].map UInt8.ofBitVec

def printAnswer (buffer : Bytes) (answer : ResRecord) : Checked AnswerLine := do
  let len ← strlen answer.name
  let type ← RData.type buffer answer.resource
  if type = tA then
    let p ← loadLong answer.rdata
    return ⟨answer.name.take len, some (inetNtoa (ntohl (p.setWidth 32)))⟩
  else
    return ⟨answer.name.take len, none⟩

def answersStart (buffer : Bytes) : Checked Nat := do
  let len ← strlen (buffer.drop sizeofDnsHeader)
  return sizeofDnsHeader + len + 1 + sizeofQuestion

def readResponse (malloc : Malloc) (fuel : Nat) (buffer : Bytes)
    : Checked (Counts × List AnswerLine) := do
  let reader ← answersStart buffer
  let counts : Counts :=
    ⟨← DnsHeader.qCount buffer, ← DnsHeader.ansCount buffer,
     ← DnsHeader.authCount buffer, ← DnsHeader.addCount buffer⟩
  let (_, answers) ← readAnswers malloc fuel buffer counts.ansCount reader []
  let lines ← answers.mapM (printAnswer buffer)
  return (counts, lines)

end Dns
