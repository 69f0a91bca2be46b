import Widgetry.Digest
import Widgetry.Json.Basic

/-!
# Fingerprints of documents

A document is written as a stream of tagged parts, each string, array and object with its length in
front, and the stream is digested. Numbers enter by the bits of their float, and the entries of an
object in the order of their keys.
-/

namespace Widgetry.Fingerprint

open Widgetry.Digest (wordBytes)

def seed : UInt64 := 0x5d1c7a3e90b42f61

def textBytes (s : String) : List UInt8 :=
  let bytes := s.toUTF8.data.toList
  wordBytes (UInt64.ofNat bytes.length) ++ bytes

def entryBytes (entry : String × List UInt8) : List UInt8 := textBytes entry.1 ++ entry.2

mutual

def stream : Json → List UInt8
  | .null => [0]
  | .bool b => [1, if b then 1 else 0]
  | .number n => 2 :: wordBytes n.toFloat.toBits
  | .string s => 3 :: textBytes s
  | .array items => 4 :: (wordBytes (UInt64.ofNat items.length) ++ streamItems items)
  | .object fields =>
      let entries := Table.ofList (streamFields fields)
      5 :: (wordBytes (UInt64.ofNat entries.length) ++ entries.flatMap entryBytes)

def streamItems : List Json → List UInt8
  | [] => []
  | item :: items => stream item ++ streamItems items

def streamFields : List (String × Json) → List (String × List UInt8)
  | [] => []
  | (key, value) :: fields => (key, stream value) :: streamFields fields

end

def ofJson (document : Json) : UInt64 := Digest.digest seed (stream document)

def render (fingerprint : UInt64) : String :=
  let ds := Nat.toDigits 16 fingerprint.toNat
  String.ofList (List.replicate (16 - ds.length) '0' ++ ds)

end Widgetry.Fingerprint
