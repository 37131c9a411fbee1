/-
  Paayatam.Identity.Totp

  `totp.ts`: the base32 a one-time-password secret is kept and provisioned in.

  Both directions run one accumulator, a 32-bit integer that is shifted and
  never masked, and count the bits in it that have not been given out yet.  The
  bits above those are what is left of earlier symbols; nothing reads them.
-/

import Paayatam.Env
import Paayatam.Lib.Bits
import Mathlib.Data.Bool.AllAny

namespace Paayatam

open Lib

namespace Totp

def BASE32_ALPHABET : List Char := "ABCDEFGHIJKLMNOPQRSTUVWXYZ234567".toList

/-- `BASE32_ALPHABET[value & 0x1f]`. -/
def symbol (value : BitVec 32) : Char := BASE32_ALPHABET.getD (value &&& 0x1f#32).toNat 'A'

/-- `value & 0xff`, as a byte of a buffer. -/
def byteOf (value : BitVec 32) : UInt8 := UInt8.ofBitVec ((value &&& 0xff#32).setWidth 8)

/-- `[=\s-]`, which the decoder skips. -/
def isSkipped (c : Char) : Bool := c = '=' || isTrimmed c || c = '-'

/-- The loop of `base32Decode`, with the bits pending and the accumulator. -/
def decodeFrom : List Char → Nat → BitVec 32 → Except String (List UInt8)
  | [], _, _ => .ok []
  | character :: rest, bits, value =>
    match BASE32_ALPHABET.idxOf? character with
    | none => .error "invalid base32 in TOTP secret"
    | some index =>
      let value := value <<< 5 ||| BitVec.ofNat 32 index
      let bits := bits + 5
      if 8 ≤ bits then
        let bits := bits - 8
        (decodeFrom rest bits value).map (byteOf (value >>> bits) :: ·)
      else decodeFrom rest bits value

/-- `toUpperCase` is the platform's. -/
def base32Decode (toUpperCase : List Char → List Char) (input : List Char) :
    Except String (List UInt8) :=
  decodeFrom ((toUpperCase input).filter fun c => !isSkipped c) 0 0#32

/-- `while (bits >= 5)`: the symbols given out, and the bits left. -/
def drain (value : BitVec 32) : Nat → List Char × Nat
  | bits + 5 =>
    let (out, left) := drain value bits
    (symbol (value >>> bits) :: out, left)
  | bits => ([], bits)

/-- The loop of `base32Encode`; the last symbol is filled up with zeros. -/
def encodeFrom : List UInt8 → Nat → BitVec 32 → List Char
  | [], bits, value => if 0 < bits then [symbol (value <<< (5 - bits))] else []
  | byte :: rest, bits, value =>
    let value := value <<< 8 ||| byte.toBitVec.setWidth 32
    let (out, left) := drain value (bits + 8)
    out ++ encodeFrom rest left value

def base32Encode (buffer : List UInt8) : List Char := encodeFrom buffer 0 0#32

/-! ## Symbols and bytes -/

section Symbols

variable {value : BitVec 32} {c : Char} {index : Nat}

/-- The five bits of a symbol. -/
def symbolBits (c : Char) : List Bool := bitsOf 5 (BitVec.ofNat 32 (BASE32_ALPHABET.idxOf c))

def byteBits (byte : UInt8) : List Bool := bitsOf 8 byte.toBitVec

theorem alphabet_index : ∀ i, i < 32 → BASE32_ALPHABET.idxOf (BASE32_ALPHABET.getD i 'A') = i ∧
    BASE32_ALPHABET.getD i 'A' ∈ BASE32_ALPHABET := by decide

theorem masked_lt (value : BitVec 32) : (value &&& 0x1f#32).toNat < 32 := by
  rw [BitVec.toNat_and]
  exact Nat.lt_of_le_of_lt Nat.and_le_right (by decide)

theorem symbol_mem (value : BitVec 32) : symbol value ∈ BASE32_ALPHABET :=
  (alphabet_index _ (masked_lt value)).2

theorem getLsbD_mask {i : Nat} (w : Nat) (hw : w ≤ 32) (value : BitVec 32) (hi : i < w) :
    (value &&& BitVec.ofNat 32 (2 ^ w - 1)).getLsbD i = value.getLsbD i := by
  rw [BitVec.getLsbD_and, BitVec.getLsbD_ofNat, Nat.testBit_two_pow_sub_one]
  simp [hi, show i < 32 by omega]

/-- A symbol has the five low bits of the accumulator. -/
theorem symbolBits_symbol (value : BitVec 32) : symbolBits (symbol value) = bitsOf 5 value := by
  unfold symbolBits symbol
  rw [(alphabet_index _ (masked_lt value)).1, BitVec.ofNat_toNat, BitVec.setWidth_eq]
  exact bitsOf_congr fun i hi => getLsbD_mask 5 (by omega) value hi

/-- A byte given out has the eight low bits of the accumulator. -/
theorem byteBits_byteOf (value : BitVec 32) : byteBits (byteOf value) = bitsOf 8 value := by
  unfold byteBits byteOf
  refine bitsOf_congr fun i hi => ?_
  have hmask := getLsbD_mask 8 (by omega) value hi
  rw [UInt8.toBitVec_ofBitVec, BitVec.getLsbD_setWidth, decide_eq_true hi, Bool.true_and]
  exact hmask

theorem byteBits_inj (a b : UInt8) (h : byteBits a = byteBits b) : a = b :=
  UInt8.toBitVec_inj.1 (bitsOf_inj h)

theorem symbol_skipped (hc : c ∈ BASE32_ALPHABET) : isSkipped c = false := by
  have hall : ∀ c ∈ BASE32_ALPHABET, isSkipped c = false :=
    List.all_iff_forall_prop.1 (by decide)
  exact hall c hc

theorem idxOf_alphabet (hc : c ∈ BASE32_ALPHABET) :
    BASE32_ALPHABET.idxOf? c = some (BASE32_ALPHABET.idxOf c) ∧ BASE32_ALPHABET.idxOf c < 32 := by
  have hall : ∀ c ∈ BASE32_ALPHABET,
      BASE32_ALPHABET.idxOf? c = some (BASE32_ALPHABET.idxOf c) ∧ BASE32_ALPHABET.idxOf c < 32 :=
    List.all_iff_forall_prop.1 (by decide)
  exact hall c hc

end Symbols

/-! ## The two loops -/

/-- The inner loop gives out whole symbols and keeps less than one. -/
theorem drain_spec (value : BitVec 32) (bits : Nat) :
    (drain value bits).1.flatMap symbolBits ++ bitsOf (drain value bits).2 value = bitsOf bits value ∧
      (drain value bits).2 < 5 ∧ ∀ c ∈ (drain value bits).1, c ∈ BASE32_ALPHABET := by
  induction bits using Nat.strong_induction_on with
  | _ bits ih =>
      by_cases hsmall : bits < 5
      · have hstop : drain value bits = ([], bits) := by
          unfold drain
          split
          · omega
          · rfl
        rw [hstop]
        exact ⟨rfl, hsmall, by simp⟩
      · obtain ⟨left, rfl⟩ : ∃ left, bits = left + 5 := ⟨bits - 5, by omega⟩
        obtain ⟨hbits, hleft, hmem⟩ := ih left (by omega)
        have hstep : drain value (left + 5) =
            (symbol (value >>> left) :: (drain value left).1, (drain value left).2) := rfl
        rw [hstep]
        refine ⟨?_, hleft, List.forall_mem_cons.2 ⟨symbol_mem _, hmem⟩⟩
        rw [List.flatMap_cons, List.append_assoc, hbits, symbolBits_symbol, Nat.add_comm left 5,
          bitsOf_add]

/-- The symbols of a buffer have the pending bits, the bits of the bytes, and zeros to fill up
    the last one. -/
theorem encodeFrom_spec (buffer : List UInt8) (bits : Nat) (value : BitVec 32) (hbits : bits < 5) :
    (∃ pad, pad.length < 5 ∧ (encodeFrom buffer bits value).flatMap symbolBits =
        bitsOf bits value ++ buffer.flatMap byteBits ++ pad) ∧
      ∀ c ∈ encodeFrom buffer bits value, c ∈ BASE32_ALPHABET := by
  induction buffer generalizing bits value with
  | nil =>
      unfold encodeFrom
      by_cases hpending : 0 < bits
      · rw [if_pos hpending]
        refine ⟨⟨bitsOf (5 - bits) (0#32), ?_, ?_⟩, ?_⟩
        · rw [length_bitsOf]
          omega
        · have hfill : bitsOf (bits + (5 - bits)) (value <<< (5 - bits)) = _ :=
            bitsOf_shiftLeft (by omega)
          rw [show bits + (5 - bits) = 5 by omega] at hfill
          rw [List.flatMap_singleton, symbolBits_symbol, hfill]
          simp
        · simp [symbol_mem]
      · obtain rfl : bits = 0 := by omega
        exact ⟨⟨[], by simp, by simp⟩, by simp⟩
  | cons byte rest ih =>
      have hpush : bitsOf (bits + 8) (value <<< 8 ||| byte.toBitVec.setWidth 32) =
          bitsOf bits value ++ byteBits byte := by
        have hbyte : bitsOf 8 (byte.toBitVec.setWidth 32) = byteBits byte := by
          refine bitsOf_congr fun i hi => ?_
          have hin : i < 32 := by omega
          rw [BitVec.getLsbD_setWidth, decide_eq_true hin, Bool.true_and]
        rw [bitsOf_push (by omega), hbyte]
        · intro i hi
          rw [BitVec.getLsbD_setWidth, BitVec.getLsbD_of_ge _ _ hi, Bool.and_false]
      obtain ⟨hdrained, hleft, hmem⟩ :=
        drain_spec (value <<< 8 ||| byte.toBitVec.setWidth 32) (bits + 8)
      obtain ⟨⟨pad, hpad, hrest⟩, hrestmem⟩ :=
        ih _ (value <<< 8 ||| byte.toBitVec.setWidth 32) hleft
      rw [encodeFrom]
      refine ⟨⟨pad, hpad, ?_⟩, ?_⟩
      · show ((drain _ (bits + 8)).1 ++ encodeFrom rest (drain _ (bits + 8)).2 _).flatMap _ = _
        rw [List.flatMap_append, hrest, List.flatMap_cons, ← List.append_assoc,
          ← List.append_assoc, hdrained, hpush]
        simp only [List.append_assoc]
      · intro c hc
        rcases List.mem_append.1 hc with hfront | hback
        · exact hmem c hfront
        · exact hrestmem c hback

/-- The bytes of a text of symbols have the pending bits and the bits of the symbols, except for
    less than a byte at the end. -/
theorem decodeFrom_spec {s : List Char} (hs : ∀ c ∈ s, c ∈ BASE32_ALPHABET) (bits : Nat)
    (value : BitVec 32) (hbits : bits < 8) :
    ∃ out left, decodeFrom s bits value = .ok out ∧ left.length < 8 ∧
      out.flatMap byteBits ++ left = bitsOf bits value ++ s.flatMap symbolBits := by
  induction s generalizing bits value with
  | nil => exact ⟨[], bitsOf bits value, rfl, by simpa using hbits, by simp⟩
  | cons c s ih =>
      obtain ⟨hc, hrest⟩ := List.forall_mem_cons.1 hs
      obtain ⟨hindex, hlt⟩ := idxOf_alphabet hc
      have hpush : bitsOf (bits + 5) (value <<< 5 ||| BitVec.ofNat 32 (BASE32_ALPHABET.idxOf c)) =
          bitsOf bits value ++ symbolBits c := by
        refine bitsOf_push (by omega) fun i hi => ?_
        have hfit : 2 ^ 5 ≤ 2 ^ i := Nat.pow_le_pow_right (by decide) hi
        rw [BitVec.getLsbD_ofNat, Nat.testBit_lt_two_pow (Nat.lt_of_lt_of_le hlt hfit),
          Bool.and_false]
      rw [decodeFrom, hindex]
      show ∃ out left, (if 8 ≤ bits + 5 then _ else _) = Except.ok out ∧ _
      generalize value <<< 5 ||| BitVec.ofNat 32 (BASE32_ALPHABET.idxOf c) = value' at hpush ⊢
      by_cases hbyte : 8 ≤ bits + 5
      · obtain ⟨out, left, hout, hleft, hall⟩ :=
          ih hrest (bits + 5 - 8) value' (by omega)
        refine ⟨byteOf (value' >>> (bits + 5 - 8)) :: out, left, ?_, hleft, ?_⟩
        · rw [if_pos hbyte]
          show (decodeFrom s (bits + 5 - 8) value').map _ = _
          rw [hout]
          rfl
        · have hsplit := bitsOf_add 8 (bits + 5 - 8) value'
          rw [show 8 + (bits + 5 - 8) = bits + 5 by omega, hpush] at hsplit
          rw [List.flatMap_cons, List.append_assoc, hall, byteBits_byteOf, ← List.append_assoc,
            ← hsplit, List.flatMap_cons, List.append_assoc]
      · obtain ⟨out, left, hout, hleft, hall⟩ :=
          ih hrest (bits + 5) value' (by omega)
        refine ⟨out, left, ?_, hleft, ?_⟩
        · rw [if_neg hbyte, hout]
        · rw [hall, hpush, List.flatMap_cons, List.append_assoc]

theorem base32_roundTrip {toUpperCase : List Char → List Char}
    (hupper : ∀ s, (∀ c ∈ s, c ∈ BASE32_ALPHABET) → toUpperCase s = s) (buffer : List UInt8) :
    base32Decode toUpperCase (base32Encode buffer) = .ok buffer := by
  obtain ⟨⟨pad, hpad, hencoded⟩, hmem⟩ :=
    encodeFrom_spec buffer 0 0#32 (by omega)
  have hsymbols : ∀ c ∈ base32Encode buffer, c ∈ BASE32_ALPHABET := hmem
  obtain ⟨out, left, hout, hleft, hdecoded⟩ :=
    decodeFrom_spec hsymbols 0 0#32 (by omega)
  have hcleaned : (base32Encode buffer).filter (fun c => !isSkipped c) = base32Encode buffer := by
    refine List.filter_eq_self.2 fun c hc => ?_
    rw [symbol_skipped (hsymbols c hc)]
    rfl
  have hlength : ∀ byte, (byteBits byte).length = 8 := fun byte => length_bitsOf
  have hsame : out = buffer := by
    refine words_of_bits hlength byteBits_inj hleft (show pad.length < 8 by omega) ?_
    rw [hdecoded, base32Encode, hencoded, bitsOf_zero, List.nil_append, List.nil_append]
  unfold base32Decode
  rw [hupper _ hsymbols, hcleaned, hout, hsame]

/-- Two bytes whose bits do not fill four symbols. -/
theorem base32_roundTrip_ascii : base32Decode (List.map Char.toUpper) (base32Encode [0xDE, 0xAD]) =
    .ok [0xDE, 0xAD] := by
  refine base32_roundTrip (fun s hs => ?_) [0xDE, 0xAD]
  have hall : ∀ c ∈ BASE32_ALPHABET, c.toUpper = c :=
    List.all_iff_forall_prop.1 (by decide)
  rw [List.map_congr_left fun c hc => hall c (hs c hc), List.map_id']

end Totp

end Paayatam
