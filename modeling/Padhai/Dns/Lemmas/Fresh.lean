import Padhai.Dns.Lemmas.OnRecv

/-!
This module contains how far the handling of a request depends on what the freshly allocated packet
buffer holds where the datagram does not cover it. The verdict and the printed header are the events
that are `isParsed`.
-/

namespace Dns

open Mem Label Traced

variable {env env' : Env} {d : Datagram} {buffer : Bytes} {n : UInt32}

section Logs

end Logs

section Fresh

end Fresh

end Dns
