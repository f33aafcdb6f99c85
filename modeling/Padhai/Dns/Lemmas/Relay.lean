import Padhai.Dns.Lemmas.Answers
import Padhai.Dns.Lemmas.Fresh

/-!
This module contains what `on_recv` does with the outcome of the upstream receive: when it relays a
reply to the client, and what failed receives lead to. After a failed receive the query is still in
the packet buffer and is taken for the reply.
-/

namespace Dns

open Mem Label Traced

variable {env : Env} {d r : Datagram} {sent buffer q : Bytes} {n : UInt32}

def onRecv.relayReceived (env : Env) (buffer : Bytes) (nBytes : UInt32) : Run Unit := do
  let rc ← verifyDnsBuffer buffer nBytes
  emit (.verified .upstream rc)
  if rc = -1 then
    emit (.forwarded (-1))
  else
    let (counts, lines) ← readResponse env.malloc env.fuel buffer
    emit (.answers counts lines)
    emit (.forwarded 0)
    let some (clientData, qType) ← readAndPrintDnsHeader buffer nBytes
      | return
    let len ← strlen clientData.domainName
    emit (.header .upstream clientData.tid (clientData.domainName.take len) qType)
    let datagram ← loadRange buffer nBytes.toNat
    emit (.sentClient datagram)

theorem relay_eq : onRecv.relay env sent = (do
    let buffer ← store (recvfrom sent env.upstreamRecv).1 ((recvfrom sent env.upstreamRecv).2 + 1).toNat 0
    onRecv.relayReceived env buffer (recvfrom sent env.upstreamRecv).2) := by
  simp only [onRecv.relay, sendDataToDns.receive, onRecv.relayReceived, UInt32.not_lt_zero, ↓reduceIte,
    bind_assoc]
  refine bind_congr fun buffer => bind_congr fun rc => bind_congr fun _ => ?_
  split
  . rw [pure_bind]
    rfl
  . simp only [bind_assoc, pure_bind]
    rfl

section Received

end Received

section FailedReceives

end FailedReceives

section Replies

end Replies

end Dns
