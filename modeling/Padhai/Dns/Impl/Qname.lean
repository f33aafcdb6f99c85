import Padhai.Dns.Basic

/-!
This module contains the functions of the server that read and write question names. They return
`none` where the source returns -1.
-/

namespace Dns

open Mem Label

def copyQname (buflen : UInt32) : (qname : Bytes) → (i : Nat) → (domainName : Bytes)
    → Checked (Option Bytes)
  | [], i, _ => .error (.outOfRange i i)
  | c :: qname, i, domainName =>
    if c ≠ 0 then do
      -- The length is compared only after the byte has been stored.
      let domainName ← store domainName i c
      if buflen.toNat < i then
        return none
      copyQname buflen qname (i + 1) domainName
    else do
      let domainName ← store domainName i 0
      return some domainName

def verifyAndCopyQname (qname domainName : Bytes) (buflen : UInt32) : Checked (Option Bytes) :=
  copyQname buflen qname 0 domainName

def verifyDnsBuffer (buffer : Bytes) (buflen : UInt32) : Checked Int := do
  if 2 * 2 > tidSize then
    return -1
  let domainName ← memset (zeros maxNameLen) 0 maxNameLen
  let some domainName ← copyQname buflen (buffer.drop sizeofDnsHeader) 0 domainName
    | return -1
  let len ← strlen domainName
  let qtype ← ntohsAt buffer (sizeofDnsHeader + (len + 1))
  if qtype ≠ tA then
    return -1
  return 0

def shiftLabel : (p i : Nat) → (name : Bytes) → Checked (Nat × Bytes)
  | 0, i, name => .ok (i, name)
  | p + 1, i, name => do
    let c ← load name (i + 1)
    let name ← store name i c
    shiftLabel p (i + 1) name

-- `val` is the number that the array's element type gives a byte.
def labelToDot.body (val : UInt8 → Int) (s : Nat × Bytes)
    : Checked ((Nat × Bytes) ⊕ (Nat × Bytes)) := do
  let (i, name) := s
  let len ← strlen name
  if i < len then
    let c ← load name i
    let (i, name) ← shiftLabel (val c).toNat i name
    let name ← store name i dot
    return .inl (i + 1, name)
  else
    return .inr (i, name)

def labelToDot (val : UInt8 → Int) (name : Bytes) : Checked Bytes := do
  -- `i` grows every turn, so a turn for each byte and one for the last test are enough.
  let (i, name) ← loop (name.length + 1) (labelToDot.body val) (0, name)
  storeAt name (i - 1) 0

def charVal (c : UInt8) : Int := c.toInt8.toInt

def ucharVal (c : UInt8) : Int := c.toNat

def readAndPrintDnsHeader (buffer : Bytes) (buflen : UInt32)
    : Checked (Option (QrData × QueryType)) := do
  let tid ← DnsHeader.id buffer
  let domainName ← memset (zeros maxNameLen) 0 maxNameLen
  let some domainName ← verifyAndCopyQname (buffer.drop sizeofDnsHeader) domainName buflen
    | return none
  let domainName ← labelToDot charVal domainName
  let len ← strlen domainName
  let clientName ← strncpy (zeros maxNameLen) 0 domainName len
  let qr ← DnsHeader.qr buffer
  return some (⟨tid, clientName⟩, if qr = 0 then .request else .response)

def copyPiece (host : Bytes) : (left lock d : Nat) → (dns : Bytes) → Checked (Nat × Nat × Bytes)
  | 0, lock, d, dns => .ok (lock, d, dns)
  | left + 1, lock, d, dns => do
    let c ← load host lock
    let dns ← store dns d c
    copyPiece host left (lock + 1) (d + 1) dns

def encodeLoop (host : Bytes) : (left i lock d : Nat) → (dns : Bytes) → Checked (Nat × Bytes)
  | 0, _, _, d, dns => .ok (d, dns)
  | left + 1, i, lock, d, dns => do
    let c ← load host i
    if c = dot then
      let dns ← store dns d (UInt8.ofNat (i - lock))
      let (lock, d, dns) ← copyPiece host (i - lock) lock (d + 1) dns
      encodeLoop host left (i + 1) (lock + 1) d dns
    else
      encodeLoop host left (i + 1) lock d dns

/--
The pointer argument is the array it points into and its offset `d` there. Both arrays are changed.
-/
def changetoDnsNameFormat (dns : Bytes) (d : Nat) (host : Bytes) : Checked (Bytes × Bytes) := do
  let host ← strcat host [dot]
  -- The loop never writes to `host`, so its bound is read once.
  let len ← strlen host
  let (d, dns) ← encodeLoop host len 0 0 d dns
  let dns ← store dns d 0
  return (dns, host)

end Dns
