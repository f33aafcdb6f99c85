import Padhai.Dns.Impl.Answers

/-!
This module contains the handling of one request by the server. `on_recv` and `send_data_to_dns` are
cut in pieces at their system calls; a piece returns `none` where the function returns early.
-/

namespace Dns

open Mem Traced

/--
`send_data_to_dns` from the clearing of the packet buffer up to the `sendto`: the packet buffer
after it, or `none` if it returned -1. The null checks of `ChangetoDnsNameFormat` never fire here,
so it always returns 0.
-/
def sendDataToDns.sendQuery (env : Env) (buffer clientDnsReq domainName : Bytes)
    : Run (Option Bytes) := do
  let buffer ← memset buffer 0 maxBufLen
  -- `sizeof(dns)` is the size of a pointer.
  let buffer ← memcpy buffer 0 (clientDnsReq.take sizeofPointer)
  let (buffer, domainName) ← changetoDnsNameFormat buffer sizeofDnsHeader domainName
  let len ← strlen domainName
  let qinfo := sizeofDnsHeader + len
  let buffer ← htonsAt buffer qinfo tA
  let buffer ← htonsAt buffer (qinfo + 2) 1
  let qnameLen ← strlen (buffer.drop sizeofDnsHeader)
  let datagram ← loadRange buffer (sizeofDnsHeader + (qnameLen + 1) + sizeofQuestion)
  emit (.sentUpstream datagram)
  if env.upstreamSend = false then
    return none
  return some buffer

def sendDataToDns.send (env : Env) (buffer : Bytes) (nBytes : UInt32) : Run (Option Bytes) := do
  let domainName ← memset (zeros maxNameLen) 0 maxNameLen
  let some domainName ← verifyAndCopyQname (buffer.drop sizeofDnsHeader) domainName nBytes
    | return none
  let (buffer, domainName) ← changetoDnsNameFormat buffer sizeofDnsHeader domainName
  let clientDnsReq ← loadRange buffer sizeofDnsHeader
  if env.setsockoptReuse = false then
    return none
  if env.setsockoptTimeout = false then
    return none
  sendQuery env buffer clientDnsReq domainName

def sendDataToDns.receive (env : Env) (buffer : Bytes) : Run (Int × Bytes × UInt32) := do
  let (buffer, nBytes) := recvfrom buffer env.upstreamRecv
  if nBytes < 0 then
    return (-1, buffer, nBytes)
  let buffer ← store buffer (nBytes + 1).toNat 0
  let rc ← verifyDnsBuffer buffer nBytes
  emit (.verified .upstream rc)
  if rc = -1 then
    return (-1, buffer, nBytes)
  let (counts, lines) ← readResponse env.malloc env.fuel buffer
  emit (.answers counts lines)
  return (0, buffer, nBytes)

def sendDataToDns (env : Env) (buffer : Bytes) (nBytes : UInt32) : Run (Int × Bytes × UInt32) := do
  let some sent ← sendDataToDns.send env buffer nBytes
    | return (-1, buffer, nBytes)
  sendDataToDns.receive env sent

def onRecv.parseRequest (buffer : Bytes) (nBytes : UInt32) : Run (Option (Bytes × UInt32)) := do
  let rc ← verifyDnsBuffer buffer nBytes
  emit (.verified .client rc)
  if rc ≠ 0 then
    return none
  let some (clientData, qType) ← readAndPrintDnsHeader buffer nBytes
    | return none
  let len ← strlen clientData.domainName
  emit (.header .client clientData.tid (clientData.domainName.take len) qType)
  let buffer ← strncpy buffer sizeofDnsHeader clientData.domainName len
  let buffer ← store buffer (sizeofDnsHeader + len) 0
  return some (buffer, nBytes)

def onRecv.readRequest (env : Env) : Run (Option (Bytes × UInt32)) := do
  -- `sizeof(buffer)` is the size of a pointer.
  let buffer ← memset env.fresh 0 sizeofPointer
  let (buffer, nBytes) := recvfrom buffer env.clientRecv
  if nBytes < 0 then
    return none
  let buffer ← store buffer (nBytes + 1).toNat 0
  parseRequest buffer nBytes

def onRecv (env : Env) : Run Unit := do
  let some (buffer, nBytes) ← onRecv.readRequest env
    | return
  let (rc, buffer, nBytes) ← sendDataToDns env buffer nBytes
  emit (.forwarded rc)
  if rc ≠ 0 then
    return
  let some (clientData, qType) ← readAndPrintDnsHeader buffer nBytes
    | return
  let len ← strlen clientData.domainName
  emit (.header .upstream clientData.tid (clientData.domainName.take len) qType)
  let datagram ← loadRange buffer nBytes.toNat
  emit (.sentClient datagram)

/--
The event loop that `main` enters: `on_recv` is called for each datagram on the server's own socket, one
after the other. Nothing follows an access outside an array.
-/
def eventBaseDispatch : List Env → Run Unit
  | [] => return
  | env :: envs => do
    onRecv env
    eventBaseDispatch envs

end Dns
