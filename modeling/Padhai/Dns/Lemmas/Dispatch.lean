import Padhai.Lib.Threads
import Padhai.Dns.Lemmas.RequestLog

/-!
This module contains what holds of the server over all requests that it handles: the protocol that its
log follows at any moment, which query a reply belongs to, and exactly when it goes on forever.
-/

namespace Dns

open Mem Label Traced Threads

variable {env : Env} {envs : List Env} {log before after : List Event} {result : Except Fault Unit}

section Protocol

/--
How far the server is with the request that it handles.
-/
inductive Phase where
  | idle
  | accepted
  | parsed
  | asked
  | received
  | rejected
  | printed
  | relaying
  | named
  deriving DecidableEq, Repr

namespace Phase

def next : Phase → Event → Option Phase
  | idle, .verified .client 0 => some accepted
  | idle, .verified .client (-1) => some idle
  | accepted, .header .client _ _ _ => some parsed
  | parsed, .sentUpstream _ => some asked
  | parsed, .forwarded (-1) => some idle
  | asked, .forwarded (-1) => some idle
  | asked, .verified .upstream 0 => some received
  | asked, .verified .upstream (-1) => some rejected
  | rejected, .forwarded (-1) => some idle
  | received, .answers _ _ => some printed
  | printed, .forwarded 0 => some relaying
  | relaying, .header .upstream _ _ _ => some named
  | named, .sentClient _ => some idle
  | _, _ => none

end Phase

end Protocol

section Dispatch

theorem eventBaseDispatch_cons_of_ok (h : (onRecv env).result = .ok ())
    : eventBaseDispatch (env :: envs)
        = ⟨(onRecv env).trace ++ (eventBaseDispatch envs).trace, (eventBaseDispatch envs).result⟩ :=
  bind_of_ok _ h

end Dispatch

section Replies

end Replies

section Returns

structure ReplyInRange (env : Env) : Prop where
  length_le : ∀ r ∈ env.upstreamRecv, r.bytes.length ≤ 510
  copied : ¬Overruns env.reply.1 env.reply.2
  read : Accepted env.reply.1 env.reply.2 → env.upstreamRecv ≠ none
    ∧ ResponseRead env.malloc env.reply.1 ∧ Printable (questionName env.reply.1)

/--
Exactly the requests after which `on_recv` returns: every access is inside its array up to the query, and
where a query goes out the same is true of the reply. A failed receive after it must not leave the query
acceptable as its own reply.
-/
structure InRange (env : Env) : Prop where
  length_le : ∀ d ∈ env.clientRecv, d.bytes.length ≤ 510
  copied : ¬Overruns env.request.1 env.request.2
  printable : Accepted env.request.1 env.request.2 → Printable env.name
  room : Accepted env.request.1 env.request.2 → env.setsockoptReuse → env.setsockoptTimeout
    → env.name.length ≤ 254
  reply : Accepted env.request.1 env.request.2 → env.setsockoptReuse → env.setsockoptTimeout
    → env.upstreamSend → ReplyInRange env

end Returns

end Dns
