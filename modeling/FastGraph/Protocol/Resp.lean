import FastGraph.Misc.Numeral

/-!
# The RESP parser

`RespParser` (`protocol/resp.cpp`). A parse consumes a whole command from the front of the
read buffer or leaves the buffer alone; every restart begins at the front again. The
buffer and the output vector, which the source passes by reference, are returned.
-/

namespace FastGraph

/-- `enum class ParseResult` (`resp.hpp:5-9`). -/
inductive ParseResult where
  | complete
  | incomplete
  | error
  deriving DecidableEq, Repr

namespace RespParser

/-- The first `"\r\n"` of a list of bytes. -/
def crlfIndex : Bytes → Option Nat
  | a :: b :: rest =>
    if a = cr ∧ b = lf then some 0 else (crlfIndex (b :: rest)).map (· + 1)
  | _ => none

/-- `RespParser::find_crlf` (`resp.cpp:4-10`): the position as an `int`, or -1. -/
def findCrlf (buf : Bytes) (start : Nat) : Int :=
  match crlfIndex (buf.drop start) with
  | some i => toInt32 (start + i : Nat)
  | none => -1

/-- `std::string::substr` with both arguments as `size_t`. A `pos` behind the end, where the
source throws and this is empty, takes a sum of `int`s that has wrapped. -/
def substr (s : Bytes) (pos len : Nat) : Bytes := (s.drop pos).take len

/-- The loop of `parse_array` (`resp.cpp:27-42`) with `count - i` items to go. A negative
length is converted to `size_t`, where it wraps, both in the bound check and in
`substr`, while `len_crlf + 2` and `len + 2` are sums of `int`s. -/
def parseArrayLoop (buf : Bytes) : Nat → Nat → List Bytes → ParseResult × Nat × List Bytes
  | 0, pos, args => (.complete, pos, args)
  | todo + 1, pos, args =>
    if buf.length ≤ pos then (.incomplete, pos, args)
    else if buf[pos]? ≠ some (charByte '$') then (.error, pos, args)
    else
      let lenCrlf := findCrlf buf pos
      if lenCrlf < 0 then (.incomplete, pos, args)
      else
        let len := atoi (buf.drop (pos + 1))
        let body := toSizeT (toInt32 (lenCrlf + 2))
        if buf.length < toSizeT (body + toSizeT len + 2) then (.incomplete, pos, args)
        else
          parseArrayLoop buf todo (toSizeT (body + toInt32 (len + 2)))
            (args ++ [substr buf body (toSizeT len)])

/-- `RespParser::parse_array` (`resp.cpp:18-47`). -/
def parseArray (buf : Bytes) (out : List Bytes) : ParseResult × Bytes × List Bytes :=
  let header := findCrlf buf 0
  if header < 0 then (.incomplete, buf, out)
  else
    let count := atoi (buf.drop 1)
    if count ≤ 0 then (.error, buf, out)
    else
      match parseArrayLoop buf count.toNat (toSizeT (toInt32 (header + 2))) [] with
      | (.complete, pos, args) => (.complete, buf.drop pos, args)
      | (res, _, _) => (res, buf, out)

/-- The loop of `parse_inline` (`resp.cpp:57-64`). The bytes from `start` to the next
space or the end are an argument unless there are none; `start` grows in every
iteration, so `line.length` iterations are all there can be. -/
def parseInlineLoop (line : Bytes) : Nat → Nat → List Bytes → List Bytes
  | 0, _, args => args
  | fuel + 1, start, args =>
    if line.length ≤ start then args
    else
      let word := (line.drop start).takeWhile (· ≠ charByte ' ')
      parseInlineLoop line fuel (start + word.length + 1)
        (if word = [] then args else args ++ [word])

/-- `RespParser::parse_inline` (`resp.cpp:49-70`). -/
def parseInline (buf : Bytes) (out : List Bytes) : ParseResult × Bytes × List Bytes :=
  let header := findCrlf buf 0
  if header < 0 then (.incomplete, buf, out)
  else
    let line := substr buf 0 (toSizeT header)
    let args := parseInlineLoop line line.length 0 []
    let buf := buf.drop (toSizeT (toInt32 (header + 2)))
    if args = [] then (.error, buf, out) else (.complete, buf, args)

/-- `RespParser::parse` (`resp.cpp:12-16`). -/
def parse (buf : Bytes) (out : List Bytes) : ParseResult × Bytes × List Bytes :=
  match buf with
  | [] => (.incomplete, buf, out)
  | b :: _ => if b = charByte '*' then parseArray buf out else parseInline buf out

end RespParser

end FastGraph
