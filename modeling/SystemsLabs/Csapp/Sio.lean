import SystemsLabs.Csapp.SioText
import SystemsLabs.Proxylab.Relay

/-! @lab csapp | file:shelllab/csapp.c, proxylab/csapp.c (sio_vdprintf, _handle_format) |
    structure:format scanner over a descriptor

    The two versions of the formatted output. The format is an array that ends with its NUL, and an
    access behind it is a fault; `va_arg` of another type than the argument has, or without one, is a
    fault too. The version of shelllab has no case for a `NULL` string, and no `break` behind
    `case 'l'`: it goes on with `case 'z'`, at the position that it has just moved on. -/

namespace Labs.Sio
open Schemes
open Labs.Http.Relay (Client WriteEv rio_writen writeLoop)

/-- An argument: `int` or `unsigned`; `long`, `size_t` and the like; a pointer, with the bytes that
    it points to. -/
inductive VarArg where
  | word (v : BitVec 32)
  | long (v : BitVec 64)
  | ptr (p : BitVec 64) (bytes : List UInt8)
  deriving DecidableEq, Repr

def va_word : List VarArg → Except Stop (BitVec 32 × List VarArg)
  | .word v :: argp => .ok (v, argp)
  | _ => .error .fault

def va_long : List VarArg → Except Stop (BitVec 64 × List VarArg)
  | .long v :: argp => .ok (v, argp)
  | _ => .error .fault

def va_ptr : List VarArg → Except Stop (BitVec 64 × List UInt8 × List VarArg)
  | .ptr p bytes :: argp => .ok (p, bytes, argp)
  | _ => .error .fault

/-- `convert_type`. -/
inductive ConvertType where
  | d
  | u
  | x
  | o
  | p
  deriving DecidableEq, Repr

/-- The conversion that a letter selects: `d` or `i`, `u`, `x`, `o`. -/
def intType (c : UInt8) : Option ConvertType :=
  if c = 100 ∨ c = 105 then some .d
  else if c = 117 then some .u
  else if c = 120 then some .x
  else if c = 111 then some .o
  else none

/-- What one iteration has found: how far it has got, the arguments left, the string to output once
    it is handled, and the number to convert. -/
structure Found where
  pos : ℕ
  argp : List VarArg
  str : Option (List UInt8)
  convert : Option (ConvertType × BitVec 64)

section Formats
variable {n : ℕ} (fmt : Buffer n)

/-- `convert_value` of an `int` or `unsigned`. -/
def widen (t : ConvertType) (v : BitVec 32) : BitVec 64 :=
  if t = .d then v.signExtend 64 else v.setWidth 64

/-- The `switch` on `fmt[pos + 2]`, under `case 'l'` and under `case 'z'`. -/
def sized (f : Found) : Except Stop Found := do
  let c ← fmt.load (f.pos + 2)
  match intType c with
  | some t => do
    let (v, argp) ← va_long f.argp
    .ok { f with pos := f.pos + 3, argp := argp, convert := some (t, v) }
  | none => .ok f

/-- The `switch` on `fmt[pos + 1]`, given what is output for `NULL`, and `case 'l'`. -/
def directive (null : Option (List UInt8)) (long : Found → Except Stop Found) (f : Found) :
    Except Stop Found := do
  let c ← fmt.load (f.pos + 1)
  if c = 99 then do
    let (v, argp) ← va_word f.argp
    .ok { f with pos := f.pos + 2, argp := argp, str := some [⟨v.setWidth 8⟩] }
  else if c = 115 then do
    let (p, bytes, argp) ← va_ptr f.argp
    let f := { f with pos := f.pos + 2, argp := argp }
    if p = 0 then
      match null with
      | some text => .ok { f with str := some text }
      | none => .error .fault
    else .ok { f with str := some (cstr bytes) }
  else if c = 37 then .ok { f with pos := f.pos + 2, str := some [37] }
  else if c = 112 then do
    let (p, _, argp) ← va_ptr f.argp
    let f := { f with pos := f.pos + 2, argp := argp }
    if p = 0 then .ok { f with str := some (str "(nil)") }
    else .ok { f with convert := some (.p, p) }
  else
    match intType c with
    | some t => do
      let (v, argp) ← va_word f.argp
      .ok { f with pos := f.pos + 2, argp := argp, convert := some (t, widen t v) }
    | none => if c = 108 then long f else if c = 122 then sized fmt f else .ok f

/-- The `switch` on `convert_type`: the text left in `buf`. -/
def converted (fuel : ℕ) (buf : Buffer 128) : ConvertType → BitVec 64 → Except Stop (List UInt8)
  | .d, v => do
    let (len, buf) ← intmax_to_string fuel v buf 0 10
    .ok (buf.bytes.take len)
  | .u, v => do
    let (len, buf) ← uintmax_to_string fuel v buf 0 10
    .ok (buf.bytes.take len)
  | .x, v => do
    let (len, buf) ← uintmax_to_string fuel v buf 0 16
    .ok (buf.bytes.take len)
  | .o, v => do
    let (len, buf) ← uintmax_to_string fuel v buf 0 8
    .ok (buf.bytes.take len)
  | .p, v => do
    let buf ← buf.memcpy 0 (str "0x" ++ [0])
    let (len, buf) ← uintmax_to_string fuel v buf 2 16
    .ok (buf.bytes.take (len + 2))

/-- The format characters at `pos`. -/
def formatAt (switch : Found → Except Stop Found) (pos : ℕ) (argp : List VarArg) :
    Except Stop Found := do
  let c ← fmt.load pos
  if c = 37 then switch ⟨pos, argp, none, none⟩ else .ok ⟨pos, argp, none, none⟩

/-- The conversion to a string, if there is something to convert. -/
def Found.converted (fuel : ℕ) (buf : Buffer 128) (f : Found) : Except Stop Found :=
  match f.convert with
  | some (t, v) => do
    let text ← Sio.converted fuel buf t v
    .ok { f with str := some text }
  | none => .ok f

/-- The string to output; what is not handled is output up to the next `%`. -/
def Found.output (f : Found) : Except Stop (ℕ × List UInt8 × List VarArg) :=
  match f.str with
  | some text => .ok (f.pos, text, f.argp)
  | none => do
    let k ← fmt.strcspn (f.pos + 1) [37]
    .ok (f.pos + (1 + k), (fmt.bytes.drop f.pos).take (1 + k), f.argp)

/-- One iteration up to the output: the new position, the output and the arguments left. -/
def handleFormat (switch : Found → Except Stop Found) (fuel : ℕ) (buf : Buffer 128) (pos : ℕ)
    (argp : List VarArg) : Except Stop (ℕ × List UInt8 × List VarArg) := do
  let f ← formatAt fmt switch pos argp
  let f ← f.converted fuel buf
  f.output fmt

/-- The loop of `sio_vdprintf`, with `num_written`. -/
def vdprintfLoop (switch : Found → Except Stop Found) (buf : Buffer 128) :
    ℕ → ℕ → List VarArg → Client → ℕ → Except Stop (ℤ × Client)
  | 0, _, _, _, _ => .error .fuel
  | k + 1, pos, argp, out, num_written => do
    let c ← fmt.load pos
    if c = 0 then .ok (num_written, out)
    else
      let (pos, text, argp) ← handleFormat fmt switch k buf pos argp
      if text.length > 0 then
        let (written, out) := rio_writen out text
        if written then vdprintfLoop switch buf k pos argp out (num_written + text.length)
        else .ok (-1, out)
      else vdprintfLoop switch buf k pos argp out num_written

end Formats

namespace Proxy
variable {n : ℕ}

/-- The `switch` of `_handle_format` in proxylab. -/
def formatSwitch (fmt : Buffer n) : Found → Except Stop Found :=
  directive fmt (some (str "(null)")) (sized fmt)

/-- `sio_vdprintf` of proxylab; `data` is cleared in each iteration. -/
def sio_vdprintf (fuel : ℕ) (out : Client) (fmt : Buffer n) (argp : List VarArg) :
    Except Stop (ℤ × Client) :=
  vdprintfLoop fmt (formatSwitch fmt) (Buffer.strncpy 128 []) fuel 0 argp out 0

end Proxy

namespace Shell
variable {n : ℕ}

/-- The `switch` of `sio_vdprintf` in shelllab: `case 'l'` falls into `case 'z'`. -/
def formatSwitch (fmt : Buffer n) : Found → Except Stop Found :=
  directive fmt none fun f => do
    let f ← sized fmt f
    sized fmt f

/-- `sio_vdprintf` of shelllab; `buf` holds what the stack held. -/
def sio_vdprintf (buf : Buffer 128) (fuel : ℕ) (out : Client) (fmt : Buffer n)
    (argp : List VarArg) : Except Stop (ℤ × Client) :=
  vdprintfLoop fmt (formatSwitch fmt) buf fuel 0 argp out 0

end Shell

end Labs.Sio
