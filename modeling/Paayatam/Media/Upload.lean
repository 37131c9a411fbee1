/-
  Paayatam.Media.Upload

  `upload.ts`: what an uploaded image must be before anything else touches it,
  and the walk over the segment markers of a JPEG that looks for its size.

  Every read of a byte is checked here, so that a read outside the array shows
  as a fault and not as a byte.
-/

import Paayatam.Env
import Mathlib.Data.List.Infix
import Mathlib.Data.List.TakeWhile
import Mathlib.Logic.Relation

namespace Paayatam

namespace Upload

def MAX_UPLOAD_BYTES : Nat := 5 * 1024 * 1024

def MAX_DIMENSION : Nat := 4096

inductive ImageFormat where
  | jpeg
  | png
  | webp
  deriving DecidableEq

inductive UploadRejection where
  | EMPTY
  | TOO_LARGE
  | UNKNOWN_FORMAT
  | SVG_REJECTED
  | POLYGLOT
  | DIMENSIONS_TOO_LARGE
  deriving DecidableEq

inductive UploadVerdict where
  | ok (format : ImageFormat)
  | rejected (reason : UploadRejection)
  deriving DecidableEq

structure Dimensions where
  width : Nat
  height : Nat

/-- What can go wrong while the bytes are read. -/
inductive Fault where
  | outOfRange
  | stillRunning
  deriving DecidableEq

/-! ## The text of the bytes -/

/-- `String.fromCharCode` of every byte. -/
def decodeAscii (bytes : List UInt8) : List Char := bytes.map fun byte => Char.ofNat byte.toNat

/-- `toLowerCase`, on the characters a byte can be. -/
def toLowerCase (c : Char) : Char :=
  if (0x41 ≤ c.toNat ∧ c.toNat ≤ 0x5a) ∨
      (0xc0 ≤ c.toNat ∧ c.toNat ≤ 0xde ∧ c.toNat ≠ 0xd7) then
    Char.ofNat (c.toNat + 32)
  else c

def includes (text : List Char) (word : String) : Bool := decide (word.toList <:+: text)

def startsWith (text : List Char) (word : String) : Bool := word.toList.isPrefixOf text

def DOCUMENT_MARKERS : List String :=
  ["<?xml", "<svg", "<!doctype html", "<html", "<script", "<?php"]

def containsDocumentMarker (bytes : List UInt8) : Bool :=
  let text := (decodeAscii bytes).map toLowerCase
  DOCUMENT_MARKERS.any (includes text)

def SIGNATURES : List (ImageFormat × List UInt8) :=
  [(.jpeg, [0xff, 0xd8, 0xff]),
   (.png, [0x89, 0x50, 0x4e, 0x47, 0x0d, 0x0a, 0x1a, 0x0a]),
   (.webp, [0x52, 0x49, 0x46, 0x46])]

/-- The format these bytes are, from their content alone. -/
def sniff (bytes : List UInt8) : Option ImageFormat :=
  match SIGNATURES.find? fun entry => entry.2.isPrefixOf bytes with
  | none => none
  | some (.webp, _) =>
    if decodeAscii ((bytes.drop 8).take 4) = "WEBP".toList then some .webp else none
  | some (format, _) => some format

/-! ## Width and height -/

def byteAt (bytes : List UInt8) (offset : Nat) : Except Fault Nat :=
  match bytes[offset]? with
  | some byte => .ok byte.toNat
  | none => .error .outOfRange

/-- `DataView.getUint16`: two bytes, the high one first. -/
def getUint16 (bytes : List UInt8) (offset : Nat) : Except Fault Nat := do
  return 256 * (← byteAt bytes offset) + (← byteAt bytes (offset + 1))

/-- `DataView.getUint32`. -/
def getUint32 (bytes : List UInt8) (offset : Nat) : Except Fault Nat := do
  return 65536 * (← getUint16 bytes offset) + (← getUint16 bytes (offset + 2))

/-- `SOF0`–`SOF3` and `SOF5`–`SOF7`. -/
def carriesDimensions (marker : Nat) : Bool := 0xc0 ≤ marker && marker ≤ 0xc7 && marker != 0xc4

/-- The `while` of `readDimensions`, at most `fuel` times round. -/
def walk (bytes : List UInt8) : Nat → Nat → Except Fault (Option Dimensions)
  | 0, offset => if offset + 9 < bytes.length then .error .stillRunning else .ok none
  | fuel + 1, offset =>
    if offset + 9 < bytes.length then do
      if (← byteAt bytes offset) != 0xff then walk bytes fuel (offset + 1)
      else
        let marker ← byteAt bytes (offset + 1)
        if carriesDimensions marker then
          let height ← getUint16 bytes (offset + 5)
          let width ← getUint16 bytes (offset + 7)
          return some { width, height }
        else
          -- `(bytes[offset + 2] << 8) | bytes[offset + 3]`
          let length ← getUint16 bytes (offset + 2)
          if length = 0 then return none else walk bytes fuel (offset + (2 + length))
    else .ok none

/-- `null` for a format whose size is not cheap to read. -/
def readDimensions (fuel : Nat) (bytes : List UInt8) (format : ImageFormat) :
    Except Fault (Option Dimensions) :=
  match format with
  | .png =>
    if 24 ≤ bytes.length then do
      let width ← getUint32 bytes 16
      let height ← getUint32 bytes 20
      return some { width, height }
    else .ok none
  | .jpeg => walk bytes fuel 2
  | .webp => .ok none

def tooLarge (dimensions : Dimensions) : Bool :=
  MAX_DIMENSION < dimensions.width || MAX_DIMENSION < dimensions.height

/-- Whether these bytes may be stored. -/
def validateUpload (fuel : Nat) (bytes : List UInt8) : Except Fault UploadVerdict :=
  if bytes.length = 0 then .ok (.rejected .EMPTY)
  else if MAX_UPLOAD_BYTES < bytes.length then .ok (.rejected .TOO_LARGE)
  else
    let head := ((decodeAscii (bytes.take 1024)).map toLowerCase).dropWhile isTrimmed
    if startsWith head "<svg" || (startsWith head "<?xml" && includes head "<svg") then
      .ok (.rejected .SVG_REJECTED)
    else
      match sniff bytes with
      | none => .ok (.rejected .UNKNOWN_FORMAT)
      | some format =>
        if containsDocumentMarker bytes then .ok (.rejected .POLYGLOT)
        else do
          let dimensions ← readDimensions fuel bytes format
          if dimensions.any tooLarge then return .rejected .DIMENSIONS_TOO_LARGE
          else return .ok format

/-! ## One turn of the walk -/

def valueAt (bytes : List UInt8) (offset : Nat) : Nat := (bytes[offset]?.getD 0).toNat

def wordAt (bytes : List UInt8) (offset : Nat) : Nat :=
  256 * valueAt bytes offset + valueAt bytes (offset + 1)

theorem byteAt_eq {bytes : List UInt8} {offset : Nat} (h : offset < bytes.length) :
    byteAt bytes offset = .ok (valueAt bytes offset) := by
  simp [byteAt, valueAt, List.getElem?_eq_getElem h]

theorem getUint16_eq {bytes : List UInt8} {offset : Nat} (h : offset + 1 < bytes.length) :
    getUint16 bytes offset = .ok (wordAt bytes offset) := by
  have h0 : offset < bytes.length := by omega
  rw [getUint16, byteAt_eq h0, byteAt_eq h]
  rfl

theorem getUint32_eq {bytes : List UInt8} {offset : Nat} (h : offset + 3 < bytes.length) :
    getUint32 bytes offset =
      .ok (65536 * wordAt bytes offset + wordAt bytes (offset + 2)) := by
  have h1 : offset + 1 < bytes.length := by omega
  have h3 : offset + 2 + 1 < bytes.length := by omega
  rw [getUint32, getUint16_eq h1, getUint16_eq h3]
  rfl

/-- A frame header of the seven kinds that are read stands at `offset`. -/
structure FrameAt (bytes : List UInt8) (offset : Nat) (found : Dimensions) : Prop where
  inside : offset + 9 < bytes.length
  lead : valueAt bytes offset = 0xff
  carries : carriesDimensions (valueAt bytes (offset + 1)) = true
  height : found.height = wordAt bytes (offset + 5)
  width : found.width = wordAt bytes (offset + 7)

/-- One turn of the loop that goes on: over a byte that opens no marker, or by
    the length that is read after one. -/
inductive Moves (bytes : List UInt8) (offset : Nat) : Nat → Prop where
  | scan (inside : offset + 9 < bytes.length) (lead : valueAt bytes offset ≠ 0xff) :
      Moves bytes offset (offset + 1)
  | skip (inside : offset + 9 < bytes.length) (lead : valueAt bytes offset = 0xff)
      (passed : carriesDimensions (valueAt bytes (offset + 1)) = false)
      (long : wordAt bytes (offset + 2) ≠ 0) :
      Moves bytes offset (offset + (2 + wordAt bytes (offset + 2)))

theorem walk_end {bytes : List UInt8} {offset : Nat} (h : ¬offset + 9 < bytes.length)
    (fuel : Nat) : walk bytes fuel offset = .ok none := by
  cases fuel with
  | zero => rw [walk, if_neg h]
  | succ fuel => rw [walk, if_neg h]

/-- The body of the loop, once the reads in it are known to be inside. -/
theorem walk_succ {bytes : List UInt8} {offset : Nat} (h : offset + 9 < bytes.length)
    (fuel : Nat) :
    walk bytes (fuel + 1) offset =
      if valueAt bytes offset ≠ 0xff then walk bytes fuel (offset + 1)
      else if carriesDimensions (valueAt bytes (offset + 1)) then
        .ok (some ⟨wordAt bytes (offset + 7), wordAt bytes (offset + 5)⟩)
      else if wordAt bytes (offset + 2) = 0 then .ok none
      else walk bytes fuel (offset + (2 + wordAt bytes (offset + 2))) := by
  have h0 : offset < bytes.length := by omega
  have h1 : offset + 1 < bytes.length := by omega
  have h2 : offset + 2 + 1 < bytes.length := by omega
  have h5 : offset + 5 + 1 < bytes.length := by omega
  have h7 : offset + 7 + 1 < bytes.length := by omega
  rw [walk, if_pos h, byteAt_eq h0, byteAt_eq h1, getUint16_eq h2, getUint16_eq h5,
    getUint16_eq h7]
  by_cases lead : valueAt bytes offset = 0xff
  · simp only [bind, Except.bind, pure, Except.pure, lead, bne_self_eq_false, ne_eq,
      not_true_eq_false, if_false, Bool.false_eq_true]
  · simp only [bind, Except.bind, ne_eq, lead, not_false_eq_true, if_true, bne_iff_ne]

theorem walk_moves {bytes : List UInt8} {offset next : Nat} (h : Moves bytes offset next)
    (fuel : Nat) : walk bytes (fuel + 1) offset = walk bytes fuel next := by
  cases h with
  | scan inside lead => rw [walk_succ inside, if_pos lead]
  | skip inside lead passed long =>
    rw [walk_succ inside, if_neg (not_not.2 lead), passed, if_neg Bool.false_ne_true,
      if_neg long]

theorem walk_frame {bytes : List UInt8} {offset : Nat} {found : Dimensions}
    (h : FrameAt bytes offset found) (fuel : Nat) :
    walk bytes (fuel + 1) offset = .ok (some found) := by
  rw [walk_succ h.inside, if_neg (not_not.2 h.lead), if_pos h.carries, ← h.width, ← h.height]

theorem Moves.inside {bytes : List UInt8} {offset next : Nat} (h : Moves bytes offset next) :
    offset + 9 < bytes.length := by
  cases h <;> assumption

/-- A turn goes on, ends at a frame header, or ends with nothing. -/
theorem moves_or_ends (bytes : List UInt8) (offset : Nat) :
    (∃ next, offset < next ∧ Moves bytes offset next) ∨ (∃ found, FrameAt bytes offset found) ∨
      (∀ fuel, walk bytes (fuel + 1) offset = .ok none) ∧ ∀ next, ¬Moves bytes offset next := by
  by_cases inside : offset + 9 < bytes.length
  · by_cases lead : valueAt bytes offset = 0xff
    · cases carries : carriesDimensions (valueAt bytes (offset + 1)) with
      | true => exact .inr (.inl ⟨⟨_, _⟩, inside, lead, carries, rfl, rfl⟩)
      | false =>
        by_cases long : wordAt bytes (offset + 2) = 0
        · refine .inr (.inr ⟨fun fuel => ?_, fun next moves => ?_⟩)
          · rw [walk_succ inside, if_neg (not_not.2 lead), carries,
              if_neg Bool.false_ne_true, if_pos long]
          · cases moves with
            | scan _ other => exact other lead
            | skip _ _ _ other => exact other long
        · exact .inl ⟨_, by omega, .skip inside lead carries long⟩
    · exact .inl ⟨_, by omega, .scan inside lead⟩
  · exact .inr (.inr ⟨fun fuel => walk_end inside _, fun next moves => inside moves.inside⟩)

theorem Moves.unique {bytes : List UInt8} {offset next other : Nat}
    (h : Moves bytes offset next) (h' : Moves bytes offset other) : next = other := by
  cases h with
  | scan _ lead =>
    cases h' with
    | scan => rfl
    | skip _ lead' => exact absurd lead' lead
  | skip _ lead =>
    cases h' with
    | scan _ lead' => exact absurd lead lead'
    | skip => rfl

theorem FrameAt.not_moves {bytes : List UInt8} {offset next : Nat} {found : Dimensions}
    (h : FrameAt bytes offset found) : ¬Moves bytes offset next := by
  intro moves
  cases moves with
  | scan _ lead => exact lead h.lead
  | skip _ _ passed => exact Bool.false_ne_true (passed.symm.trans h.carries)

/-! ## The whole walk -/

/-- Every turn goes forward, so as many turns as there are bytes are enough. -/
theorem walk_returns (bytes : List UInt8) (fuel offset : Nat)
    (h : bytes.length ≤ offset + fuel) : ∃ found, walk bytes fuel offset = .ok found := by
  induction fuel generalizing offset with
  | zero => exact ⟨none, walk_end (by omega) 0⟩
  | succ fuel ih =>
    rcases moves_or_ends bytes offset with ⟨next, forward, moves⟩ | ⟨found, frame⟩ | ⟨ends, _⟩
    · rw [walk_moves moves]
      exact ih next (by omega)
    · exact ⟨some found, walk_frame frame fuel⟩
    · exact ⟨none, ends fuel⟩

theorem walk_enough (bytes : List UInt8) (fuel more offset : Nat)
    (h : bytes.length ≤ offset + fuel) :
    walk bytes (fuel + more) offset = walk bytes fuel offset := by
  induction fuel generalizing offset with
  | zero =>
    have past : ¬offset + 9 < bytes.length := by omega
    rw [walk_end past, walk_end past]
  | succ fuel ih =>
    rw [Nat.add_right_comm]
    rcases moves_or_ends bytes offset with ⟨next, forward, moves⟩ | ⟨found, frame⟩ | ⟨ends, _⟩
    · rw [walk_moves moves, walk_moves moves]
      exact ih next (by omega)
    · rw [walk_frame frame, walk_frame frame]
    · rw [ends, ends]

/-- The bytes of any format are read to an end, and no read is out of range. -/
theorem readDimensions_returns (bytes : List UInt8) (format : ImageFormat) :
    ∃ found, ∀ fuel, bytes.length ≤ fuel → readDimensions fuel bytes format = .ok found := by
  cases format with
  | webp => exact ⟨none, fun fuel _ => rfl⟩
  | png =>
    by_cases long : 24 ≤ bytes.length
    · have h16 : 16 + 3 < bytes.length := by omega
      have h20 : 20 + 3 < bytes.length := by omega
      refine ⟨some ⟨65536 * wordAt bytes 16 + wordAt bytes 18,
        65536 * wordAt bytes 20 + wordAt bytes 22⟩, fun fuel _ => ?_⟩
      rw [readDimensions, if_pos long, getUint32_eq h16, getUint32_eq h20]
      rfl
    · exact ⟨none, fun fuel _ => by rw [readDimensions, if_neg long]⟩
  | jpeg =>
    have ⟨found, returned⟩ := walk_returns bytes bytes.length 2 (by omega)
    refine ⟨found, fun fuel enough => ?_⟩
    have more := walk_enough bytes bytes.length (fuel - bytes.length) 2 (by omega)
    rw [Nat.add_sub_cancel' enough, returned] at more
    exact more

/-- What the walk finds is the frame header its turns lead to. -/
theorem walk_some_iff (bytes : List UInt8) (found : Dimensions) (fuel offset : Nat)
    (h : bytes.length ≤ offset + fuel) :
    walk bytes fuel offset = .ok (some found) ↔
      ∃ last, Relation.ReflTransGen (Moves bytes) offset last ∧ FrameAt bytes last found := by
  induction fuel generalizing offset with
  | zero =>
    have past : ¬offset + 9 < bytes.length := by omega
    rw [walk_end past]
    refine ⟨fun impossible => ?_, fun ⟨last, run, frame⟩ => ?_⟩
    · simp at impossible
    · rcases run.cases_head with here | ⟨next, moves, _⟩
      · exact absurd (here ▸ frame.inside) past
      · exact absurd moves.inside past
  | succ fuel ih =>
    rcases moves_or_ends bytes offset with ⟨next, forward, moves⟩ | ⟨other, frame⟩ | ⟨ends, stuck⟩
    · rw [walk_moves moves, ih next (by omega)]
      constructor
      · rintro ⟨last, run, frame⟩
        exact ⟨last, .head moves run, frame⟩
      · rintro ⟨last, run, frame⟩
        rcases run.cases_head with here | ⟨between, first, run⟩
        · exact absurd moves (here ▸ frame).not_moves
        · exact ⟨last, moves.unique first ▸ run, frame⟩
    · rw [walk_frame frame]
      constructor
      · intro same
        cases same
        exact ⟨offset, .refl, frame⟩
      · rintro ⟨last, run, frame'⟩
        rcases run.cases_head with here | ⟨between, first, _⟩
        · subst here
          have same := (walk_frame frame 0).symm.trans (walk_frame frame' 0)
          exact same
        · exact absurd first frame.not_moves
    · rw [ends]
      refine ⟨fun impossible => ?_, fun ⟨last, run, frame⟩ => ?_⟩
      · simp at impossible
      · rcases run.cases_head with here | ⟨next, moves, _⟩
        · subst here
          exact (ends 0).symm.trans (walk_frame frame 0)
        · exact absurd moves (stuck next)

/-! ## The marker grammar of a JPEG -/

/-- `SOF0`–`SOF15` without `DHT`, `JPG` and `DAC`. -/
def isFrameMarker (marker : Nat) : Bool :=
  0xc0 ≤ marker && marker ≤ 0xcf && marker != 0xc4 && marker != 0xc8 && marker != 0xcc

/-- The markers no length follows: `TEM`, `RST0`–`RST7`, `SOI` and `EOI`. -/
def isParameterless (marker : Nat) : Bool :=
  marker = 0x01 || (0xd0 ≤ marker && marker ≤ 0xd9)

/-- The markers of the tables and the miscellaneous segments, which may come
    before the frame: not `0xff`, and not `SOS`. -/
def opensSegment (marker : Nat) : Bool :=
  0x02 ≤ marker && marker < 0xff && marker != 0xda && !isFrameMarker marker &&
    !isParameterless marker

/-- Two bytes, the high one first. -/
def bigEndian (n : Nat) : List UInt8 := [UInt8.ofNat (n / 256), UInt8.ofNat (n % 256)]

/-- A marker ahead of the frame, with the fill bytes ahead of it. -/
inductive Segment where
  | parameterless (fill : Nat) (marker : UInt8) (h : isParameterless marker.toNat)
  | parameters (fill : Nat) (marker : UInt8) (payload : List UInt8)
      (h : opensSegment marker.toNat) (short : payload.length + 2 < 65536)

def Segment.bytes : Segment → List UInt8
  | .parameterless fill marker _ => List.replicate fill 0xff ++ [0xff, marker]
  | .parameters fill marker payload _ _ =>
    List.replicate fill 0xff ++ 0xff :: marker :: (bigEndian (payload.length + 2) ++ payload)

structure Frame where
  fill : Nat
  marker : UInt8
  precision : UInt8
  height : UInt16
  width : UInt16
  components : List (UInt8 × UInt8 × UInt8)
  isFrame : isFrameMarker marker.toNat
  some : 0 < components.length
  few : components.length < 256

def Frame.bytes (frame : Frame) : List UInt8 :=
  List.replicate frame.fill 0xff ++ 0xff :: frame.marker ::
    (bigEndian (8 + 3 * frame.components.length) ++ frame.precision ::
      (bigEndian frame.height.toNat ++ (bigEndian frame.width.toNat ++
        UInt8.ofNat frame.components.length ::
          frame.components.flatMap fun (id, sampling, table) => [id, sampling, table])))

def Frame.declared (frame : Frame) : Dimensions :=
  { width := frame.width.toNat, height := frame.height.toNat }

/-- `SOI`, what stands ahead of the frame, the frame header, and the scans. -/
structure Jpeg where
  segments : List Segment
  frame : Frame
  scans : List UInt8

def Jpeg.bytes (picture : Jpeg) : List UInt8 :=
  0xff :: 0xd8 :: (picture.segments.flatMap Segment.bytes ++
    (picture.frame.bytes ++ picture.scans))

/-- A segment the walk takes for what it is: no fill bytes, and a length. -/
def Segment.isRead : Segment → Bool
  | .parameterless _ _ _ => false
  | .parameters fill _ _ _ _ => fill = 0

/-- A frame header the walk takes for one. -/
def Frame.isRead (frame : Frame) : Bool :=
  frame.fill = 0 && carriesDimensions frame.marker.toNat

def Jpeg.isRead (picture : Jpeg) : Bool :=
  picture.segments.all Segment.isRead && picture.frame.isRead

/-- Where the first thing stands that the walk does not take for what it is. -/
def Jpeg.unread (picture : Jpeg) : Nat :=
  2 + ((picture.segments.takeWhile Segment.isRead).flatMap Segment.bytes).length

/-! ## What the walk makes of it -/

theorem valueAt_append (before after : List UInt8) (offset : Nat) :
    valueAt (before ++ after) (before.length + offset) = valueAt after offset := by
  rw [valueAt, valueAt, List.getElem?_append_right (by omega), Nat.add_sub_cancel_left]

theorem wordAt_append (before after : List UInt8) (offset : Nat) :
    wordAt (before ++ after) (before.length + offset) = wordAt after offset := by
  rw [wordAt, wordAt, valueAt_append, Nat.add_assoc, valueAt_append]

theorem wordAt_bigEndian {n : Nat} (h : n < 65536) (after : List UInt8) :
    wordAt (bigEndian n ++ after) 0 = n := by
  have high : n / 256 < 256 := by omega
  have low : n % 256 < 256 := by omega
  show 256 * (UInt8.ofNat (n / 256)).toNat + (UInt8.ofNat (n % 256)).toNat = n
  rw [UInt8.toNat_ofNat_of_lt' high, UInt8.toNat_ofNat_of_lt' low]
  omega

theorem isFrameMarker_of_carriesDimensions {marker : Nat} (h : carriesDimensions marker) :
    isFrameMarker marker := by
  simp only [carriesDimensions, isFrameMarker, Bool.and_eq_true, decide_eq_true_eq,
    bne_iff_ne] at h ⊢
  omega

theorem carriesDimensions_of_opensSegment {marker : Nat} (h : opensSegment marker) :
    carriesDimensions marker = false := by
  cases carries : carriesDimensions marker with
  | false => rfl
  | true =>
    have frame := isFrameMarker_of_carriesDimensions carries
    simp [opensSegment, frame] at h

theorem Frame.length_bytes (frame : Frame) : 10 ≤ frame.bytes.length := by
  simp only [Frame.bytes, bigEndian, List.length_append, List.length_cons, List.length_nil]
  omega

/-- The walk steps over a segment it reads. -/
theorem Segment.moves {segment : Segment} (h : segment.isRead) (before after : List UInt8)
    (long : 10 ≤ after.length) :
    Moves (before ++ (segment.bytes ++ after)) before.length
      (before ++ segment.bytes).length := by
  cases segment with
  | parameterless => exact absurd h Bool.false_ne_true
  | parameters fill marker payload opens short =>
    have none : fill = 0 := by simpa [Segment.isRead] using h
    subst none
    have bytes : (Segment.parameters 0 marker payload opens short).bytes ++ after =
        0xff :: marker :: (bigEndian (payload.length + 2) ++ (payload ++ after)) := by
      simp [Segment.bytes]
    have size : (Segment.parameters 0 marker payload opens short).bytes.length =
        2 + (payload.length + 2) := by
      simp [Segment.bytes, bigEndian]
      omega
    rw [List.length_append, size, bytes]
    have length : wordAt (before ++ 0xff :: marker ::
        (bigEndian (payload.length + 2) ++ (payload ++ after))) (before.length + 2) =
        payload.length + 2 := by
      rw [wordAt_append]
      exact wordAt_bigEndian short (payload ++ after)
    have skip := @Moves.skip (before ++ 0xff :: marker ::
        (bigEndian (payload.length + 2) ++ (payload ++ after))) before.length
      (by simp [bigEndian]; omega)
      (valueAt_append before _ 0)
      (by
        rw [valueAt_append]
        exact carriesDimensions_of_opensSegment opens)
      (by omega)
    rw [length] at skip
    exact skip

/-- It steps over all the segments it reads, one after another. -/
theorem moves_segments (segments : List Segment) (h : ∀ segment ∈ segments, segment.isRead)
    (before after : List UInt8) (long : 10 ≤ after.length) :
    Relation.ReflTransGen (Moves (before ++ (segments.flatMap Segment.bytes ++ after)))
      before.length (before ++ segments.flatMap Segment.bytes).length := by
  induction segments generalizing before with
  | nil => simpa using Relation.ReflTransGen.refl
  | cons segment rest ih =>
    have readFirst := h segment List.mem_cons_self
    have readRest : ∀ other ∈ rest, other.isRead := fun other mem =>
      h other (List.mem_cons_of_mem _ mem)
    have first := Segment.moves readFirst before (rest.flatMap Segment.bytes ++ after)
      (by rw [List.length_append]; omega)
    have others := ih readRest (before ++ segment.bytes)
    simp only [List.flatMap_cons, List.append_assoc] at first others ⊢
    exact .head first others

theorem Frame.frameAt {frame : Frame} (h : frame.isRead) (before after : List UInt8) :
    FrameAt (before ++ (frame.bytes ++ after)) before.length frame.declared := by
  have ⟨noFill, carries⟩ : frame.fill = 0 ∧ carriesDimensions frame.marker.toNat := by
    simpa [Frame.isRead] using h
  have long := frame.length_bytes
  have ⟨tail, bytes⟩ : ∃ tail, frame.bytes ++ after = 0xff :: frame.marker ::
      (bigEndian (8 + 3 * frame.components.length) ++ frame.precision ::
        (bigEndian frame.height.toNat ++ (bigEndian frame.width.toNat ++ tail))) := by
    refine ⟨?_, ?_⟩
    · exact UInt8.ofNat frame.components.length ::
        (frame.components.flatMap fun (id, sampling, table) => [id, sampling, table]) ++ after
    · simp [Frame.bytes, noFill]
  constructor
  · simp only [List.length_append]
    omega
  · rw [bytes]
    exact valueAt_append before _ 0
  · rw [bytes, valueAt_append]
    exact carries
  · rw [bytes, wordAt_append]
    exact (wordAt_bigEndian frame.height.toNat_lt (bigEndian frame.width.toNat ++ tail)).symm
  · rw [bytes, wordAt_append]
    exact (wordAt_bigEndian frame.width.toNat_lt tail).symm

/-- From the start of the picture the walk gets to the first thing it does not
    take for what it is. -/
theorem Jpeg.moves_unread (picture : Jpeg) :
    Relation.ReflTransGen (Moves picture.bytes) 2 picture.unread := by
  have split : picture.segments.flatMap Segment.bytes =
      (picture.segments.takeWhile Segment.isRead).flatMap Segment.bytes ++
        (picture.segments.dropWhile Segment.isRead).flatMap Segment.bytes := by
    rw [← List.flatMap_append, List.takeWhile_append_dropWhile]
  have run := moves_segments (picture.segments.takeWhile Segment.isRead)
    (fun segment mem => List.mem_takeWhile_imp mem) [0xff, 0xd8]
    ((picture.segments.dropWhile Segment.isRead).flatMap Segment.bytes ++
      (picture.frame.bytes ++ picture.scans))
    (by
      have long := picture.frame.length_bytes
      simp only [List.length_append]
      omega)
  rw [← List.append_assoc (List.flatMap _ _), ← split] at run
  have start : picture.unread =
      ([0xff, 0xd8] ++ (picture.segments.takeWhile Segment.isRead).flatMap
        Segment.bytes).length := by
    rw [List.length_append]
    rfl
  rw [start]
  exact run

/-- When it takes everything for what it is, that is the frame header. -/
theorem Jpeg.frameAt_unread {picture : Jpeg} (h : picture.isRead) :
    FrameAt picture.bytes picture.unread picture.frame.declared := by
  have ⟨segments, frame⟩ : picture.segments.all Segment.isRead ∧ picture.frame.isRead := by
    simpa [Jpeg.isRead] using h
  have all : picture.segments.takeWhile Segment.isRead = picture.segments :=
    List.takeWhile_eq_self_iff.2 (List.all_eq_true.1 segments)
  have found := Frame.frameAt frame
    ([0xff, 0xd8] ++ picture.segments.flatMap Segment.bytes) picture.scans
  rw [List.append_assoc] at found
  have start : picture.unread =
      ([0xff, 0xd8] ++ picture.segments.flatMap Segment.bytes).length := by
    rw [Jpeg.unread, all, List.length_append]
    rfl
  rw [start]
  exact found

/-- The walk over a picture finds the frame header that its turns lead to from
    there on. -/
theorem Jpeg.walk_some_iff (picture : Jpeg) (found : Dimensions) (fuel : Nat)
    (enough : picture.bytes.length ≤ fuel) :
    walk picture.bytes fuel 2 = .ok (some found) ↔
      ∃ last, Relation.ReflTransGen (Moves picture.bytes) picture.unread last ∧
        FrameAt picture.bytes last found := by
  rw [Upload.walk_some_iff picture.bytes found fuel 2 (by omega)]
  constructor
  · rintro ⟨last, run, frame⟩
    refine ⟨last, ?_, frame⟩
    have unique : Relator.RightUnique (Moves picture.bytes) := fun _ _ _ => Moves.unique
    rcases Relation.ReflTransGen.total_of_right_unique unique run picture.moves_unread with
      after | before
    · rcases after.cases_head with here | ⟨next, moves, _⟩
      · exact here ▸ .refl
      · exact absurd moves frame.not_moves
    · exact before
  · rintro ⟨last, run, frame⟩
    exact ⟨last, picture.moves_unread.trans run, frame⟩

/-! ## What the verdict is -/

theorem exists_lead (fill : Nat) (after : List UInt8) :
    ∃ tail, List.replicate fill 0xff ++ 0xff :: after = 0xff :: tail := by
  cases fill with
  | zero => exact ⟨after, rfl⟩
  | succ fill => exact ⟨List.replicate fill 0xff ++ 0xff :: after, rfl⟩

theorem Segment.lead (segment : Segment) : ∃ tail, segment.bytes = 0xff :: tail := by
  cases segment with
  | parameterless fill marker => exact exists_lead fill [marker]
  | parameters fill => exact exists_lead fill _

theorem Frame.lead (frame : Frame) : ∃ tail, frame.bytes = 0xff :: tail :=
  exists_lead frame.fill _

theorem Jpeg.signature (picture : Jpeg) :
    ∃ tail, picture.bytes = 0xff :: 0xd8 :: 0xff :: tail := by
  obtain ⟨segments, frame, scans⟩ := picture
  cases segments with
  | nil =>
    have ⟨tail, lead⟩ := frame.lead
    refine ⟨tail ++ scans, ?_⟩
    simp [Jpeg.bytes, lead]
  | cons segment rest =>
    have ⟨tail, lead⟩ := segment.lead
    refine ⟨tail ++ (rest.flatMap Segment.bytes ++ (frame.bytes ++ scans)), ?_⟩
    simp [Jpeg.bytes, lead]

/-- A picture whose first bytes are those of a JPEG has no text at its head. -/
theorem validateUpload_jpeg (fuel : Nat) (tail : List UInt8) :
    validateUpload fuel (0xff :: 0xd8 :: 0xff :: tail) =
      if MAX_UPLOAD_BYTES < tail.length + 3 then .ok (.rejected .TOO_LARGE)
      else if containsDocumentMarker (0xff :: 0xd8 :: 0xff :: tail) then
        .ok (.rejected .POLYGLOT)
      else do
        let dimensions ← walk (0xff :: 0xd8 :: 0xff :: tail) fuel 2
        if dimensions.any tooLarge then return .rejected .DIMENSIONS_TOO_LARGE
        else return .ok .jpeg := by
  have format : sniff (0xff :: 0xd8 :: 0xff :: tail) = some .jpeg := by
    simp [sniff, SIGNATURES]
  have first : ((decodeAscii ((0xff :: 0xd8 :: 0xff :: tail).take 1024)).map
      toLowerCase).dropWhile isTrimmed =
        'ÿ' :: ((decodeAscii ((0xd8 :: 0xff :: tail).take 1023)).map toLowerCase) := by
    rw [List.take_succ_cons]
    rfl
  have noText : ∀ word rest, word.toList.head? = some '<' →
      startsWith ('ÿ' :: rest) word = false := by
    intro word rest opens
    rw [startsWith]
    cases chars : word.toList with
    | nil => simp [chars] at opens
    | cons c others =>
      have isOpening : c = '<' := by simpa [chars] using opens
      subst isOpening
      rfl
  rw [validateUpload, first, format]
  simp only [noText "<svg" _ rfl, noText "<?xml" _ rfl, Bool.false_and, Bool.or_false]
  rfl

def Jpeg.Refused (picture : Jpeg) (fuel : Nat) : Prop :=
  ∀ format, validateUpload fuel picture.bytes ≠ .ok (.ok format)

/-- A picture is refused for its size in bytes, for a document inside it, or for
    the dimensions the walk finds. -/
theorem Jpeg.refused_iff (picture : Jpeg) (fuel : Nat) (enough : picture.bytes.length ≤ fuel) :
    picture.Refused fuel ↔
      MAX_UPLOAD_BYTES < picture.bytes.length ∨ containsDocumentMarker picture.bytes ∨
        ∃ found, walk picture.bytes fuel 2 = .ok (some found) ∧ tooLarge found := by
  have ⟨found, returned⟩ := walk_returns picture.bytes fuel 2 (by omega)
  have ⟨tail, bytes⟩ := picture.signature
  have length : picture.bytes.length = tail.length + 3 := by rw [bytes]; rfl
  have verdict := validateUpload_jpeg fuel tail
  rw [← bytes, ← length, returned] at verdict
  rw [Refused, verdict, returned]
  by_cases large : MAX_UPLOAD_BYTES < picture.bytes.length
  · simp [large]
  · by_cases document : containsDocumentMarker picture.bytes = true
    · simp [large, document]
    · cases found with
      | none => simp [large, document, bind, Except.bind, pure, Except.pure]
      | some found =>
        cases big : tooLarge found with
        | true => simp [large, document, bind, Except.bind, pure, Except.pure, big]
        | false => simp [large, document, bind, Except.bind, pure, Except.pure, big]

/-- The bytes of any format are read to an end and inside the array.  A picture
    whose frame header declares too large a size is refused just when it is too
    long, carries a document, the walk takes everything up to that header for what
    it is, or its turns from the first thing it does not lead by accident to other
    bytes that look like such a header. -/
theorem validateUpload_oversized (bytes : List UInt8) (format : ImageFormat) (picture : Jpeg)
    (oversized : tooLarge picture.frame.declared) :
    (∃ found, ∀ fuel, bytes.length ≤ fuel → readDimensions fuel bytes format = .ok found) ∧
      ∀ fuel, picture.bytes.length ≤ fuel →
        (picture.Refused fuel ↔
          MAX_UPLOAD_BYTES < picture.bytes.length ∨ containsDocumentMarker picture.bytes ∨
            picture.isRead ∨
              ∃ last found, Relation.ReflTransGen (Moves picture.bytes) picture.unread last ∧
                FrameAt picture.bytes last found ∧ tooLarge found) := by
  refine ⟨readDimensions_returns bytes format, fun fuel enough => ?_⟩
  rw [picture.refused_iff fuel enough]
  refine or_congr_right (or_congr_right ⟨?_, ?_⟩)
  · rintro ⟨found, walked, large⟩
    have ⟨last, run, frame⟩ := (picture.walk_some_iff found fuel enough).1 walked
    exact .inr ⟨last, found, run, frame, large⟩
  · rintro (read | ⟨last, found, run, frame, large⟩)
    · have frame := Jpeg.frameAt_unread read
      exact ⟨picture.frame.declared,
        (picture.walk_some_iff _ fuel enough).2 ⟨_, .refl, frame⟩, oversized⟩
    · exact ⟨found, (picture.walk_some_iff _ fuel enough).2 ⟨last, run, frame⟩, large⟩

/-- A frame header of one component that declares 65535 columns and no more than
    one row, with as many fill bytes ahead of it. -/
def wideFrame (fill : Nat) (marker : UInt8) (isFrame : isFrameMarker marker.toNat) : Frame :=
  { fill, marker, precision := 8, height := 1, width := 65535, components := [(1, 0x11, 0)],
    isFrame, some := by decide, few := by decide }

/-- A comment, the wide frame, and `EOI`. -/
def wideJpeg (fill : Nat) (marker : UInt8) (isFrame : isFrameMarker marker.toNat) : Jpeg :=
  { segments := [.parameters 0 0xfe [0x68, 0x69] (by decide) (by decide)],
    frame := wideFrame fill marker isFrame, scans := [0xff, 0xd9] }

theorem validateUpload_oversized_plain :
    tooLarge (wideJpeg 0 0xc0 (by decide)).frame.declared ∧
      (wideJpeg 0 0xc0 (by decide)).Refused 23 := by
  have large : tooLarge (wideJpeg 0 0xc0 (by decide)).frame.declared := by decide
  have verdict := (validateUpload_oversized [] .jpeg _ large).2 23 (by decide)
  exact ⟨large, verdict.2 (.inr (.inr (.inl (by decide))))⟩

/-- One fill byte ahead of the frame header, or an arithmetic-coded frame, and
    the picture is let through. -/
theorem wideJpeg_accepted :
    (tooLarge (wideJpeg 1 0xc0 (by decide)).frame.declared ∧
      validateUpload 24 (wideJpeg 1 0xc0 (by decide)).bytes = .ok (.ok .jpeg)) ∧
    (tooLarge (wideJpeg 0 0xc9 (by decide)).frame.declared ∧
      validateUpload 23 (wideJpeg 0 0xc9 (by decide)).bytes = .ok (.ok .jpeg)) := by
  decide

end Upload

end Paayatam
