import Tazamun.Lib.Codec
import Tazamun.Sync.Transfer

set_option autoImplicit false

/-! # The encoding of a chunk list

A manifest blob is a postcard-encoded `Vec<ChunkRef>`. postcard is third-party: what the
transfer relies on is that an encoded list decodes to itself and that an entry takes at most
37 bytes (`Postcard.Lawful`), as the comment at `MAX_MANIFEST_BYTES` says. `postcard` is the
format itself: the length as a varint, and for each entry the 32 bytes of the hash and the
length as a varint.
-/

namespace Tazamun

/-- The entry fits the fields of `ChunkRef`: 32 bytes and a `u32`. -/
def ChunkRef.Fits (r : ChunkRef) : Prop := r.hash < 256 ^ 32 ∧ r.len < 2 ^ 32

namespace Transfer

structure Postcard.Lawful (pc : Postcard) : Prop where
  round : ∀ refs bytes, refs.length < 2 ^ 64 → (∀ r ∈ refs, r.Fits) →
    pc.toBytes refs = .ok bytes → pc.fromBytes bytes = some refs
  length_le : ∀ refs bytes, pc.toBytes refs = .ok bytes → bytes.length ≤ 10 + 37 * refs.length

/-- An entry: the hash, then the length. -/
def chunkRefCodec : Lib.Codec ChunkRef :=
  (Lib.Codec.pair (.fixed 32) (.varint 4 (2 ^ 32))).via (fun r => (r.hash, r.len))
    (fun p => { hash := p.1, len := p.2 })

def chunkRefsCodec : Lib.Codec (List ChunkRef) := .seq (.varint 9 (2 ^ 64)) chunkRefCodec

def postcard : Postcard where
  toBytes := fun refs => .ok (chunkRefsCodec.write refs)
  fromBytes := chunkRefsCodec.decode

theorem chunkRefCodec_faithful {r : ChunkRef} (h : r.Fits) : chunkRefCodec.Faithful r := by
  have hlen : (Lib.Codec.varint 4 (2 ^ 32)).Faithful r.len :=
    Lib.Codec.varint_faithful (by norm_num) h.2
  exact Lib.Codec.via_faithful (Lib.Codec.pair_faithful (Lib.Codec.fixed_faithful h.1) hlen) rfl

theorem length_chunkRefCodec_le (r : ChunkRef) : (chunkRefCodec.write r).length ≤ 37 := by
  have hhash := Lib.Codec.length_fixed 32 r.hash
  have hlen := Lib.Codec.length_varint_le 4 (2 ^ 32) r.len
  show ((Lib.Codec.fixed 32).write r.hash ++ (Lib.Codec.varint 4 (2 ^ 32)).write r.len).length ≤ 37
  rw [List.length_append]
  omega

theorem postcard_lawful : postcard.Lawful where
  round := fun refs bytes hcount hfits h => by
    obtain rfl : chunkRefsCodec.write refs = bytes := Except.ok.inj h
    refine Lib.Codec.decode_write (Lib.Codec.seq_faithful ?_ ?_)
    · exact Lib.Codec.varint_faithful (by norm_num) hcount
    · exact fun r hr => chunkRefCodec_faithful (hfits r hr)
  length_le := fun refs bytes h => by
    obtain rfl : chunkRefsCodec.write refs = bytes := Except.ok.inj h
    have hfirst := Lib.Codec.length_varint_le 9 (2 ^ 64) refs.length
    have hrest := Lib.Codec.length_flatMap_le refs length_chunkRefCodec_le
    show ((Lib.Codec.varint 9 (2 ^ 64)).write refs.length
      ++ refs.flatMap chunkRefCodec.write).length ≤ _
    rw [List.length_append]
    omega

end Transfer

end Tazamun
