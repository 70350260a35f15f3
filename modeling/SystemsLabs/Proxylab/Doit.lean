import SystemsLabs.Proxylab.CacheSections
import SystemsLabs.Proxylab.Request

/-! @lab proxylab | file:proxy.c (doit, send_response_to_client) | structure:one request

    One thread's whole run over its request, with the actions it takes. The two critical sections
    are those of the cache model. `read_request` returns nothing, so `doit` goes on with the buffers
    in whatever state they are; an unassigned one is used as it is. -/

namespace Labs.Http
open Schemes Labs.WebCache

/-- What the system answers: `pthread_mutex_init`, `open_clientfd` by host name and port, the write
    to the server, the bytes of the server, `Malloc` in the insertion. -/
structure Env where
  initFails : Bool
  connects : Bytes → Bytes → Bool
  accepts : Bool
  origin : List ReadEv
  elem : Ptr

/-- The loop of `send_response_to_client`; `response` holds what was copied so far. A failed read
    returns -1, which the unsigned `n` turns into a huge length, so the first `memcpy` faults. -/
def relayLoop : ℕ → Rio → Bytes → ℕ → ℕ → Except Stop (Bytes × ℕ × List Action)
  | 0, _, _, _, _ => .error .fuel
  | k + 1, r, response, leftover, size =>
    match rio_readnb MAX_OBJECT_SIZE r with
    | (none, _) => .error .fault
    | (some [], _) => .ok (response, size, [])
    | (some (c :: cs), r) => do
      let temp := c :: cs
      let (response, leftover, size) ←
        if leftover > 0 then
          if size + temp.length ≤ MAX_OBJECT_SIZE then
            .ok (response.take size ++ temp, leftover - temp.length, size + temp.length)
          else .error .fault
        else .ok (response, leftover, 0)
      let (response, size, acts) ← relayLoop k r response leftover size
      return (response, size, .toClient temp :: acts)

def send_response_to_client (fuel : ℕ) (server : List ReadEv) :
    Except Stop (Bytes × ℕ × List Action) :=
  relayLoop fuel (rio_readinitb server) [] MAX_OBJECT_SIZE 0

/-- From the miss on: forward the request, relay the response, and insert it. -/
def forward (fuel : ℕ) (env : Env) (stack : Stack) (parsed : Parsed) (uri : Bytes) (p : Proxy) :
    Except Stop (Proxy × List Action) :=
  let (hostname, used) := stack.use .hostname parsed.hostname
  let (port, used') := stack.use .port parsed.port
  if env.connects hostname port then
    let (request, used'') := stack.use .request parsed.request
    let acts := used ++ used' ++ .connect hostname port :: used''
    if env.accepts then do
      let (response, size, relayed) ← send_response_to_client fuel env.origin
      let acts := acts ++ .toServer request :: relayed
      if size ≠ 0 then do
        let p ← insertSection fuel p uri response size env.elem
        return (p, acts)
      else return (p, acts)
    else return (p, acts)
  else return (p, used ++ used')

def doit (fuel : ℕ) (env : Env) (stack : Stack) (fd : List ReadEv) (p : Proxy) :
    Except Stop (Proxy × List Action) := do
  let (parsed, acts) ← read_request fuel stack fd
  if env.initFails then return (p, acts)
  else do
    let (uri, used) := stack.use .uri parsed.uri
    let (p, found) ← lookupSection fuel p uri
    match found with
    | some response => return (p, acts ++ used ++ [.toClient response])
    | none => do
      let (p, forwarded) ← forward fuel env stack parsed uri p
      return (p, acts ++ used ++ forwarded)

end Labs.Http
