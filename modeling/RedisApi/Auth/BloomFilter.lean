import RedisApi.Core.EcmaScript

/-!
# The Bloom filter for usernames

`bloom-filter.service.ts`: two hashes of the username and the bit positions they make.
-/

namespace RedisApi.Auth

open Core EcmaScript

/-- `BloomFilterService.BIT_SIZE` -/
def bitSize : ℤ := 1000000

/-- `BloomFilterService.NUM_HASHES` -/
def numHashes : ℕ := 7

def fnv1a (value : JsString) : ℤ :=
  value.foldl
    (fun hash c =>
      let hash := bitXor hash c.toNat
      toUint32 (imul hash 0x01000193))
    0x811c9dc5

def djb2 (value : JsString) : ℤ :=
  value.foldl (fun hash c => toUint32 (bitXor (imul hash 33) c.toNat)) 5381

def positions (value : JsString) : List ℤ :=
  let m := bitSize
  let h1 := remainder (fnv1a value) m
  let h2raw := remainder (djb2 value) m
  let h2 := if remainder h2raw 2 = 0 then h2raw + 1 else h2raw
  (List.range numHashes).map fun i : ℕ => remainder (h1 + i * h2) m

end RedisApi.Auth
