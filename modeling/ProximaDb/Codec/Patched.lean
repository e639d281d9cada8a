/-
  ProximaDb.Codec.Patched

  Offsets from a base, packed at a width that is enough for nine of ten. An offset that does not
  fit is a patch: it is written behind the packed ones with its place, and the decoder puts it
  back.
-/
import ProximaDb.Codec.Repeats

namespace ProximaDb.Codec

open ProximaDb.Lib Format List Option

/-- The integer types that go over the wire. -/
inductive WirePrim where
  | i32
  | i64

def WirePrim.wireBytes : WirePrim → Nat
  | i32 => 4
  | i64 => 8

abbrev WirePrim.Value (W : WirePrim) : Type := BitVec (8 * W.wireBytes)

variable {W : WirePrim}

def widen (v : W.Value) : Word := v.signExtend 64

/-! ## Patches -/

/-- The absolute value at nine tenths of the list. -/
def threshold (deltas : List Word) : Nat :=
  ((deltas.map (fun d => d.toInt.natAbs)).insertionSort (· ≤ ·)).getD (deltas.length * 90 / 100) 0

def isPatched (maxRegular : Nat) (delta : Word) : Bool := decide (maxRegular < delta.toInt.natAbs)

def regularOf (maxRegular : Nat) (deltas : List Word) : List Word :=
  deltas.map (fun d => if isPatched maxRegular d then 0 else d)

def patchesOf (maxRegular : Nat) (deltas : List Word) : List (BitVec 32 × Word) :=
  (deltas.zipIdx.filter (fun q => isPatched maxRegular q.1)).map
    (fun q => (BitVec.ofNat 32 q.2, q.1))

/-- `[bits][number of patches][packed words][patches]` -/
def putPatched (bits maxRegular : Nat) (deltas : List Word) : Option Bytes :=
  let patches := patchesOf maxRegular deltas
  (bitpackI64 (regularOf maxRegular deltas) bits).map (fun packed => UInt8.ofNat bits ::
    (word32.put (BitVec.ofNat 32 patches.length) ++ (packed ++ patches.flatMap run.put)))

def getPatched (unpack : Bytes → Nat → Nat → Option (List Word)) (count : Nat) :
    Bytes → Option (List Word)
  | [] => none
  | bits :: data => do
    let p ← word32.get data
    let q ← takeExact ((count * bits.toNat + 7) / 8) p.2
    let patches ← getMany run p.1.toNat q.2
    let deltas ← unpack q.1 bits.toNat count
    return placeAll deltas patches.1

section Patches

variable {deltas : List Word} {bits maxRegular : Nat}

variable (deltas maxRegular) in
theorem getPatched_putPatched {unpack : Bytes → Nat → Nat → Option (List Word)} {low : Word → Word}
    (hbits : bits ≤ 64) {k : Nat} (hk : k = (patchesOf maxRegular deltas).length % 2 ^ 32)
    (hunpack : ∀ packed, bitpackI64 (regularOf maxRegular deltas) bits = some packed →
      unpack packed bits (regularOf maxRegular deltas).length =
        some ((regularOf maxRegular deltas).map low)) :
    ∃ data, putPatched bits maxRegular deltas = some data ∧
      getPatched unpack deltas.length data = some
        (placeAll ((regularOf maxRegular deltas).map low)
          ((patchesOf maxRegular deltas).take k)) := by
  obtain ⟨packed, hpacked⟩ : ∃ packed, bitpackI64 (regularOf maxRegular deltas) bits = some packed :=
    ⟨_, if_neg (by omega)⟩
  have hsize : packed.length = (deltas.length * bits + 7) / 8 := by
    rw [bitpackI64, if_neg (by omega)] at hpacked
    cases hpacked
    simp [length_setBits, regularOf]
  have hnat : (UInt8.ofNat bits).toNat = bits := by
    rw [UInt8.toNat_ofNat']
    omega
  have hmany := getMany_take run _ [] hk
  rw [append_nil] at hmany
  have hback := hunpack packed hpacked
  rw [regularOf, length_map, ← regularOf] at hback
  refine ⟨_, by rw [putPatched, hpacked]; rfl, ?_⟩
  simp only [getPatched, word32.get_put, hnat, takeExact_append hsize, hmany, hback, bind_some,
    Option.bind_eq_bind]
  rfl

/-- The patches can be counted with 32 bits, and so can their places. -/
def PatchesCounted (maxRegular : Nat) (deltas : List Word) : Prop :=
  (patchesOf maxRegular deltas).length < 2 ^ 32 ∧
    ∀ q ∈ deltas.zipIdx, isPatched maxRegular q.1 = true → q.2 < 2 ^ 32

theorem placeAll_patchesOf {low : Word → Word} (hzero : low 0 = 0)
    (hcounted : PatchesCounted maxRegular deltas) :
    placeAll ((regularOf maxRegular deltas).map low) (patchesOf maxRegular deltas) =
      deltas.map (fun d => if isPatched maxRegular d then d else low d) := by
  have hlow : (regularOf maxRegular deltas).map low =
      deltas.map (fun d => if isPatched maxRegular d then 0 else low d) := by
    rw [regularOf, List.map_map]
    refine map_congr_left (fun d _ => ?_)
    rw [Function.comp_apply, apply_ite low, hzero]
  rw [hlow]
  exact placeAll_left_out _ low [] hcounted.2

/-- If each of the places is among the first patches that 32 bits can count, then they all are. -/
theorem patchesCounted_of_placed {k : Nat} (hk : k = (patchesOf maxRegular deltas).length % 2 ^ 32)
    (h : ∀ q ∈ deltas.zipIdx, isPatched maxRegular q.1 = true →
      ∃ c ∈ (patchesOf maxRegular deltas).take k, c.1.toNat = q.2) :
    PatchesCounted maxRegular deltas := by
  refine ⟨?_, fun q hq hpatched => ?_⟩
  · -- the places are different, so that there are no more of them than patches that were counted
    have hnodup : ((deltas.zipIdx.filter (fun q => isPatched maxRegular q.1)).map Prod.snd).Nodup :=
      (filter_sublist.map Prod.snd).nodup (by simpa using nodup_range')
    have hsubset : ((deltas.zipIdx.filter (fun q => isPatched maxRegular q.1)).map Prod.snd) ⊆
        ((patchesOf maxRegular deltas).take k).map (·.1.toNat) := by
      intro i hi
      obtain ⟨q, hq, rfl⟩ := mem_map.1 hi
      obtain ⟨c, hc, hplace⟩ := h q (mem_filter.1 hq).1 (mem_filter.1 hq).2
      exact mem_map.2 ⟨c, hc, hplace⟩
    have hle := (hnodup.subperm hsubset).length_le
    rw [length_map, length_map, ← length_map (f := fun q => (BitVec.ofNat 32 q.2, q.1)),
      ← patchesOf, length_take] at hle
    omega
  · obtain ⟨c, -, hplace⟩ := h q hq hpatched
    rw [← hplace]
    exact c.1.isLt

end Patches

/-! ## Offsets from a base -/

def unbitpackI64Unsigned (data : Bytes) (bits count : Nat) : Option (List Word) :=
  if 64 < bits then none
  else some ((range count).map (fun k => unpackWord data bits (k * bits)))

def offsetsFrom (base : W.Value) (values : List W.Value) : List Word :=
  values.map (fun v => widen v - widen base)

/-- Nine tenths of the offsets fit into so many bits, without a sign. -/
def regularWidth (deltas : List Word) : Nat :=
  if threshold deltas = 0 then 1 else (threshold deltas).size

def encodePforDeltaWire (values : List W.Value) (base : W.Value) : Option Bytes :=
  if values = [] then some []
  else
    let deltas := offsetsFrom base values
    let bits := regularWidth deltas
    (putPatched bits (2 ^ bits - 1) deltas).map ((leWord W.wireBytes).put base ++ ·)

def decodePforDeltaWire (W : WirePrim) (data : Bytes) (count : Nat) : Option (List W.Value) :=
  if count = 0 then some []
  else do
    let base ← (leWord W.wireBytes).get data
    let deltas ← getPatched unbitpackI64Unsigned count base.2
    return deltas.map (fun d => (widen base.1 + d).setWidth _)

theorem threshold_le (deltas : List Word) : threshold deltas ≤ 2 ^ 63 := by
  unfold threshold
  rw [getD_eq_getElem?_getD]
  cases hget : ((deltas.map (fun d => d.toInt.natAbs)).insertionSort (· ≤ ·))[
      deltas.length * 90 / 100]? with
  | none => exact Nat.zero_le _
  | some n =>
    obtain ⟨d, -, rfl⟩ := mem_map.1 ((mem_insertionSort _).1 (mem_of_getElem? hget))
    have hlow := BitVec.le_toInt d
    have hhigh := BitVec.toInt_lt (x := d)
    show d.toInt.natAbs ≤ 2 ^ 63
    omega

theorem regularWidth_le (deltas : List Word) : regularWidth deltas ≤ 64 := by
  unfold regularWidth
  split
  · decide
  · exact Nat.size_le.2 (lt_of_le_of_lt (threshold_le deltas) (by decide))

/-- The low `bits` bits of a word. -/
abbrev lowBits (bits : Nat) (w : Word) : Word := (w.setWidth bits).setWidth 64

theorem unbitpackI64Unsigned_bitpackI64 {values : List Word} {bits : Nat} {data : Bytes}
    (hle : bits ≤ 64) (h : bitpackI64 values bits = some data) :
    unbitpackI64Unsigned data bits values.length = some (values.map (lowBits bits)) := by
  rw [unbitpackI64Unsigned, if_neg (by omega), some_inj]
  apply ext_getElem (by simp)
  intro k hk hk'
  rw [getElem_map, getElem_range, getElem_map]
  apply BitVec.eq_of_getLsbD_eq
  intro i hi
  rw [getLsbD_unpackWord_bitpackI64 hle h (by simpa using hk')]
  simp [BitVec.getLsbD_setWidth, hi]

theorem bits_le : 8 * W.wireBytes ≤ 64 := by cases W <;> decide

theorem setWidth_widen (base v : W.Value) : (widen base + (widen v - widen base)).setWidth _ = v := by
  rw [add_sub_self, widen]
  apply BitVec.eq_of_getLsbD_eq
  intro i hi
  have hle := bits_le (W := W)
  simp only [BitVec.getLsbD_setWidth, BitVec.getLsbD_signExtend, hi, show i < 64 by omega,
    decide_true, Bool.true_and, if_true]

/-- A packed offset comes back as it was unless its sign is lost. -/
theorem setWidth_lowBits {bits : Nat} {base v : W.Value}
    (hsmall : (widen v - widen base).toInt.natAbs < 2 ^ bits) :
    (widen base + lowBits bits (widen v - widen base)).setWidth _ = v ↔
      0 ≤ (widen v - widen base).toInt ∨ 8 * W.wireBytes ≤ bits := by
  have hback := setWidth_widen base v
  rw [BitVec.setWidth_add _ _ bits_le] at hback ⊢
  nth_rewrite 2 [← hback]
  rw [BitVec.add_right_inj]
  generalize widen v - widen base = d at hsmall ⊢
  constructor
  · intro heq
    by_contra! hneg
    -- the bit of the sign is above the width, where nothing is read back
    have hbit := congrArg (·.getLsbD (8 * W.wireBytes - 1)) heq
    have hpow : 2 ^ bits ≤ 2 ^ (8 * W.wireBytes - 1) := Nat.pow_le_pow_right (by decide) (by omega)
    rw [BitVec.toInt_eq_toNat_cond] at hneg hsmall
    cases W <;>
      simp only [WirePrim.wireBytes, BitVec.getLsbD, Nat.testBit_eq_decide_div_mod_eq]
        at hbit hneg hpow <;>
      simp at hbit <;> omega
  · rintro (hpos | hwide)
    · have hnat : d.toNat < 2 ^ bits := by
        rw [BitVec.toInt_eq_toNat_cond] at hpos hsmall
        split at hpos <;> omega
      congr 1
      apply BitVec.eq_of_toNat_eq
      rw [BitVec.toNat_setWidth, BitVec.toNat_setWidth, Nat.mod_eq_of_lt hnat,
        Nat.mod_eq_of_lt (BitVec.isLt _)]
    · rw [BitVec.setWidth_setWidth_of_le _ bits_le, BitVec.setWidth_setWidth_of_le _ hwide]

/-- If the patches are counted, the values come back unless the sign of a packed offset is lost. -/
theorem map_placeAll_eq_iff {bits : Nat} {base : W.Value} {values : List W.Value}
    (hcounted : PatchesCounted (2 ^ bits - 1) (offsetsFrom base values)) :
    (placeAll ((regularOf (2 ^ bits - 1) (offsetsFrom base values)).map (lowBits bits))
        (patchesOf (2 ^ bits - 1) (offsetsFrom base values))).map
        (fun d => (widen base + d).setWidth _) = values ↔
      ∀ d ∈ offsetsFrom base values, d.toInt.natAbs < 2 ^ bits →
        0 ≤ d.toInt ∨ 8 * W.wireBytes ≤ bits := by
  rw [placeAll_patchesOf (by simp) hcounted, offsetsFrom, List.map_map, List.map_map,
    List.forall_mem_map]
  nth_rewrite 2 [← map_id values]
  rw [map_inj_left]
  refine forall₂_congr (fun v _ => ?_)
  rw [Function.comp_apply, Function.comp_apply, id, isPatched]
  have hpos := Nat.two_pow_pos bits
  split_ifs with hpatched
  · refine ⟨fun _ hsmall => ?_, fun _ => setWidth_widen base v⟩
    simp only [decide_eq_true_eq] at hpatched
    omega
  · have hsmall : (widen v - widen base).toInt.natAbs < 2 ^ bits := by
      simp only [decide_eq_true_eq, not_lt] at hpatched
      omega
    rw [setWidth_lowBits hsmall]
    exact ⟨fun h _ => h, fun h => h hsmall⟩

/-- The values come back exactly if the patches can be counted and no offset that is packed has a
    sign, unless its width is that of the values. -/
theorem pforDelta_exact (values : List W.Value) (base : W.Value) :
    ∃ data, encodePforDeltaWire values base = some data ∧
      (decodePforDeltaWire W data values.length = some values ↔
        PatchesCounted (2 ^ regularWidth (offsetsFrom base values) - 1) (offsetsFrom base values) ∧
        ∀ d ∈ offsetsFrom base values,
          d.toInt.natAbs < 2 ^ regularWidth (offsetsFrom base values) →
          0 ≤ d.toInt ∨ 8 * W.wireBytes ≤ regularWidth (offsetsFrom base values)) := by
  by_cases hnil : values = []
  · subst hnil
    exact ⟨[], rfl, fun _ => ⟨⟨Nat.two_pow_pos 32, nofun⟩, nofun⟩, fun _ => rfl⟩
  have hle := regularWidth_le (offsetsFrom base values)
  generalize hbits : regularWidth (offsetsFrom base values) = bits at hle
  have hcount : (offsetsFrom base values).length = values.length := length_map _
  obtain ⟨data, hput, hget⟩ := getPatched_putPatched (offsetsFrom base values) (2 ^ bits - 1) hle rfl
    (fun packed hpacked => unbitpackI64Unsigned_bitpackI64 hle hpacked)
  rw [hcount] at hget
  refine ⟨(leWord W.wireBytes).put base ++ data,
    by simp [encodePforDeltaWire, hnil, hbits, hput], ?_⟩
  rw [decodePforDeltaWire, if_neg (by simpa using hnil), (leWord _).get_put]
  simp only [hget, Option.bind_eq_bind, bind_some, Option.pure_def, some_inj]
  have hall : ∀ {patches : List (BitVec 32 × Word)}, patches.length < 2 ^ 32 →
      patches.take (patches.length % 2 ^ 32) = patches := by
    intro patches hlt
    rw [Nat.mod_eq_of_lt hlt, take_length]
  refine ⟨fun heq => ?_, fun h => by rw [hall h.1.1]; exact (map_placeAll_eq_iff h.1).2 h.2⟩
  have hcounted : PatchesCounted (2 ^ bits - 1) (offsetsFrom base values) := by
    refine patchesCounted_of_placed rfl (fun q hq hpatched => ?_)
    by_contra! hnot
    -- where no patch is placed the base comes back
    have hq' := (mem_zipIdx_iff_getElem? ..).1 hq
    have hbase : (widen base + 0).setWidth _ = base := by simpa using setWidth_widen base base
    have hzero : values[q.2]? = some base := by
      rw [← heq, getElem?_map, getElem?_placeAll hnot, getElem?_map, regularOf, getElem?_map, hq']
      simpa [hpatched] using hbase
    rw [offsetsFrom, getElem?_map, hzero] at hq'
    simp [isPatched, ← some_inj.1 hq'] at hpatched
  rw [hall hcounted.1] at heq
  exact ⟨hcounted, (map_placeAll_eq_iff hcounted).1 heq⟩

/-- One below the base: one bit is packed, and read back without a sign. -/
theorem negative_offset_positive :
    (encodePforDeltaWire (W := .i64) [-1] 0).bind (decodePforDeltaWire .i64 · 1) = some [1] := by
  decide +kernel

end ProximaDb.Codec
