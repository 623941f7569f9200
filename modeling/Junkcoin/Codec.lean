-- The round trips of the wire form: what `Serialize` writes, `Unserialize`
-- reads back, whatever follows it.
import Junkcoin.Unserialize

namespace junkcoin

variable {n : Nat} {vin : List CTxIn} {vout : List CTxOut} {tx : CTransaction}
  {rest bytes input : List UInt8}

open Reader

/-! ## Numbers -/

theorem reads_readBytes (b : List UInt8) : Reads (readBytes b.length) b b := reads_take _ b

theorem reads_readLe {len : Nat} (h : n < 256 ^ len) : Reads (readLe len) (Bytes.le len n) n := by
  have hread := reads_readBytes (Bytes.le len n)
  rw [Bytes.length_le] at hread
  have := hread.map (f := Bytes.ofLe)
  rwa [Bytes.ofLe_le, Nat.mod_eq_of_lt h] at this

theorem reads_uint32 (n : UInt32) : Reads (readLe 4) (Bytes.le 4 n.toNat) n.toNat :=
  reads_readLe n.toNat_lt

theorem reads_bitVec32 (n : BitVec 32) : Reads (readLe 4) (Bytes.le 4 n.toNat) n.toNat :=
  reads_readLe n.isLt

theorem reads_readUint256 (h : Uint256) : Reads readUint256 h.bytes h := by
  have hlt : h.toNat < 256 ^ 32 := h.isLt
  have := (reads_readLe hlt).map (f := BitVec.ofNat 256)
  rwa [BitVec.ofNat_toNat, BitVec.setWidth_eq] at this

theorem reads_readInt32 {n : Int} (h1 : -2 ^ 31 ≤ n) (h2 : n < 2 ^ 31) :
    Reads readInt32 (Bytes.le 4 (n % 2 ^ 32).toNat) n := by
  have hlt : (n % 2 ^ 32).toNat < 256 ^ 4 := by omega
  have := (reads_readLe hlt).map (f := fun m : Nat => (m + 2 ^ 31 : Int) % 2 ^ 32 - 2 ^ 31)
  have hn : (((n % 2 ^ 32).toNat : Int) + 2 ^ 31) % 2 ^ 32 - 2 ^ 31 = n := by omega
  rwa [hn] at this

theorem reads_readInt64 {n : Int} (h1 : -2 ^ 63 ≤ n) (h2 : n < 2 ^ 63) :
    Reads readInt64 (Bytes.le 8 (n % 2 ^ 64).toNat) n := by
  have hlt : (n % 2 ^ 64).toNat < 256 ^ 8 := by omega
  have := (reads_readLe hlt).map (f := fun m : Nat => int64 m)
  have hn : int64 ((n % 2 ^ 64).toNat : Int) = n := by
    unfold int64
    omega
  rwa [hn] at this

/-! ## Vectors -/

theorem reads_readCanonical {len low : Nat} (hlow : low ≤ n) (h : n < 256 ^ len) :
    Reads (readCanonical len low) (Bytes.le len n) n := by
  have hfail : Reads (failIf (decide (n < low)) "non-canonical ReadCompactSize()") [] () :=
    reads_failIf (decide_eq_false (by omega))
  have := (reads_readLe h).bind (f := fun n => do
    failIf (decide (n < low)) "non-canonical ReadCompactSize()"
    pure n) (hfail.bind (Reads.pure n))
  rwa [List.append_nil, List.append_nil] at this

/-- The first byte says which form follows. -/
theorem reads_compactSize_form (hn : n < 2 ^ 64) :
    ∃ first rest, compactSize n = Bytes.le 1 first ++ rest ∧ first < 256 ∧
      Reads (if first < 253 then pure first
        else if first = 253 then readCanonical 2 253
        else if first = 254 then readCanonical 4 0x10000
        else readCanonical 8 0x100000000 : Reader String Nat) rest n := by
  unfold compactSize
  by_cases h1 : n < 253
  · refine ⟨n, [], by simp [h1, Bytes.le], by omega, ?_⟩
    rw [if_pos h1]
    exact Reads.pure n
  · by_cases h2 : n ≤ 0xffff
    · refine ⟨253, Bytes.le 2 n, by simp [h1, h2, Bytes.le], by omega, ?_⟩
      exact reads_readCanonical (by omega) (by omega)
    · by_cases h3 : n ≤ 0xffffffff
      · refine ⟨254, Bytes.le 4 n, by simp [h1, h2, h3, Bytes.le], by omega, ?_⟩
        exact reads_readCanonical (by omega) (by omega)
      · refine ⟨255, Bytes.le 8 n, by simp [h1, h2, h3, Bytes.le], by omega, ?_⟩
        exact reads_readCanonical (by omega) (by omega)

theorem reads_readCompactSize (h : n ≤ MAX_SIZE) : Reads readCompactSize (compactSize n) n := by
  have hmax : MAX_SIZE = 0x02000000 := rfl
  obtain ⟨first, rest, hbytes, hfirst, hform⟩ := reads_compactSize_form (show n < 2 ^ 64 by omega)
  have hfail : Reads (failIf (decide (n > MAX_SIZE)) "ReadCompactSize(): size too large") [] () :=
    reads_failIf (decide_eq_false (by omega))
  rw [hbytes]
  refine (reads_readLe (show first < 256 ^ 1 by omega)).bind ?_
  have := hform.bind (f := fun n => do
    failIf (decide (n > MAX_SIZE)) "ReadCompactSize(): size too large"
    pure n) (hfail.bind (Reads.pure n))
  rwa [List.append_nil, List.append_nil] at this

theorem reads_readVector {α : Type} {r : Reader String α} (enc : α → List UInt8) {l : List α}
    (hlen : l.length ≤ MAX_SIZE) (h : ∀ a ∈ l, Reads r (enc a) a) :
    Reads (readVector r) (serVector enc l) l :=
  (reads_readCompactSize hlen).bind (reads_many h)

theorem reads_readByteVector {b : List UInt8} (hlen : b.length ≤ MAX_SIZE) :
    Reads readByteVector (serBytes b) b :=
  (reads_readCompactSize hlen).bind (reads_readBytes b)

/-! ## Transactions -/

/-- A vector that `ReadCompactSize` lets pass. -/
def sizeOk {α : Type} (l : List α) : Prop := l.length ≤ MAX_SIZE

/-- The vectors of an input are within the limit. -/
structure CTxIn.Fits (txin : CTxIn) : Prop where
  scriptSig : sizeOk txin.scriptSig
  stack : sizeOk txin.scriptWitness
  items : ∀ item ∈ txin.scriptWitness, sizeOk item

/-- The script of an output is within the limit; the value is an `int64_t`. -/
structure CTxOut.Fits (out : CTxOut) : Prop where
  low : -2 ^ 63 ≤ out.nValue
  high : out.nValue < 2 ^ 63
  scriptPubKey : sizeOk out.scriptPubKey

structure CTransaction.Fits (tx : CTransaction) : Prop where
  vin : sizeOk tx.vin
  vout : sizeOk tx.vout
  ins : ∀ txin ∈ tx.vin, txin.Fits
  outs : ∀ out ∈ tx.vout, out.Fits

/-- An input as it is read before its witness. -/
def CTxIn.bare (txin : CTxIn) : CTxIn := { txin with scriptWitness := [] }

/-- A transaction without its witnesses. -/
def CTransaction.bare (tx : CTransaction) : CTransaction :=
  { tx with vin := tx.vin.map CTxIn.bare }

theorem reads_outPoint (o : COutPoint) : Reads COutPoint.unserialize o.serialize o := by
  refine ((reads_readUint256 o.hash).bind (reads_uint32 o.n).map).of_eq rfl ?_
  rw [UInt32.ofNat_toNat]

theorem reads_txIn {txin : CTxIn} (h : txin.Fits) :
    Reads CTxIn.unserialize txin.serialize txin.bare := by
  refine ((reads_outPoint txin.prevout).bind ((reads_readByteVector h.scriptSig).bind
    (reads_uint32 txin.nSequence).map)).of_eq ?_ ?_
  · rw [CTxIn.serialize, List.append_assoc]
  · rw [UInt32.ofNat_toNat]
    rfl

theorem reads_txOut {out : CTxOut} (h : out.Fits) :
    Reads CTxOut.unserialize out.serialize out :=
  (reads_readInt64 h.low h.high).bind ((reads_readByteVector h.scriptPubKey).map)

theorem reads_vin (hlen : sizeOk vin) (h : ∀ txin ∈ vin, txin.Fits) :
    Reads (readVector CTxIn.unserialize) (serVector CTxIn.serialize vin) (vin.map CTxIn.bare) := by
  have hser : serVector CTxIn.serialize vin =
      serVector CTxIn.serialize (vin.map CTxIn.bare) := by
    simp only [serVector, List.length_map, List.flatMap_map]
    rfl
  rw [hser]
  refine reads_readVector CTxIn.serialize (by rw [List.length_map]; exact hlen) fun txin hin => ?_
  obtain ⟨t, ht, rfl⟩ := List.mem_map.mp hin
  exact reads_txIn ⟨(h t ht).scriptSig, Nat.zero_le _, by simp [CTxIn.bare]⟩

theorem reads_vout (hlen : sizeOk vout) (h : ∀ out ∈ vout, out.Fits) :
    Reads (readVector CTxOut.unserialize) (serVector CTxOut.serialize vout) vout :=
  reads_readVector _ hlen fun out hout => reads_txOut (h out hout)

theorem reads_witness {txin : CTxIn} (h : txin.Fits) :
    Reads (readWitness txin.bare) (serVector serBytes txin.scriptWitness) txin := by
  have hstack := reads_readVector serBytes h.stack fun item hitem =>
    reads_readByteVector (h.items item hitem)
  exact hstack.map.of_eq rfl rfl

theorem reads_insOuts_plain (h : tx.Fits) (fAllowWitness : Bool)
    (hvin : tx.vin ≠ [] ∨ fAllowWitness = false) :
    Reads (readInsOuts fAllowWitness)
      (serVector CTxIn.serialize tx.vin ++ serVector CTxOut.serialize tx.vout)
      (0, tx.vin.map CTxIn.bare, tx.vout) := by
  refine (reads_vin h.vin h.ins).bind ?_
  rw [if_neg]
  · exact (reads_vout h.vout h.outs).map
  · rcases hvin with hvin | hvin
    · simp [hvin]
    · simp [hvin]

/-- The dummy of the extended format is an empty vector. -/
theorem reads_insOuts_extended (h : tx.Fits) :
    Reads (readInsOuts true)
      ([0, 1] ++ (serVector CTxIn.serialize tx.vin ++ serVector CTxOut.serialize tx.vout))
      (1, tx.vin.map CTxIn.bare, tx.vout) := by
  have hdummy : Reads (readVector CTxIn.unserialize) [0] [] := by
    refine (reads_readVector CTxIn.serialize (l := []) ?_ ?_).of_eq ?_ rfl
    · simp
    · simp
    · simp [serVector, compactSize]
  have hflags : Reads (readLe 1) [1] 1 := by
    refine (reads_readLe (show 1 < 256 ^ 1 by omega)).of_eq ?_ rfl
    simp [Bytes.le]
  have hinner : Reads (do
      let flags ← readLe 1
      if flags ≠ 0 then do
        let vin ← readVector CTxIn.unserialize
        let vout ← readVector CTxOut.unserialize
        pure (flags, vin, vout)
      else pure (flags, [], []) : Reader String (Nat × List CTxIn × List CTxOut))
      ([1] ++ (serVector CTxIn.serialize tx.vin ++ serVector CTxOut.serialize tx.vout))
      (1, tx.vin.map CTxIn.bare, tx.vout) := by
    refine hflags.bind ?_
    exact (reads_vin h.vin h.ins).bind (reads_vout h.vout h.outs).map
  have hbytes : [0, 1] ++ (serVector CTxIn.serialize tx.vin ++ serVector CTxOut.serialize tx.vout) =
      [0] ++ ([1] ++ (serVector CTxIn.serialize tx.vin ++ serVector CTxOut.serialize tx.vout)) :=
    rfl
  refine hdummy.bind ?_
  exact hinner

theorem reads_witnesses (h : tx.Fits) :
    Reads (readWitnesses true 1 (tx.vin.map CTxIn.bare))
      (tx.vin.flatMap fun txin => serVector serBytes txin.scriptWitness) (0, tx.vin) := by
  unfold readWitnesses
  exact (reads_each fun txin hin => reads_witness (h.ins txin hin)).map

theorem bare_of_not_hasWitness (h : tx.hasWitness = false) : tx.vin.map CTxIn.bare = tx.vin := by
  rw [CTransaction.hasWitness, List.any_eq_false] at h
  refine (List.map_congr_left fun txin hin => ?_).trans (List.map_id _)
  have hempty : txin.scriptWitness = [] := by simpa using h txin hin
  rw [CTxIn.bare, ← hempty]
  rfl

/-- The end of the basic format, where there are no flags. -/
theorem reads_transaction_plain (h : tx.Fits) (fAllowWitness : Bool)
    (hvin : tx.vin ≠ [] ∨ fAllowWitness = false) :
    Reads (unserializeTransaction fAllowWitness)
      (Bytes.le 4 tx.nVersion.toNat ++ ((serVector CTxIn.serialize tx.vin ++
        serVector CTxOut.serialize tx.vout) ++ Bytes.le 4 tx.nLockTime.toNat)) tx.bare := by
  refine (reads_bitVec32 tx.nVersion).bind ((reads_insOuts_plain h fAllowWitness hvin).bind ?_)
  have hwitness : Reads (readWitnesses fAllowWitness 0 (tx.vin.map CTxIn.bare)) []
      (0, tx.vin.map CTxIn.bare) := by
    unfold readWitnesses
    exact Reads.pure _
  have hflags : Reads (failIf (0 != 0) "Unknown transaction optional data") [] () :=
    reads_failIf (by simp)
  refine (hwitness.bind (hflags.bind (reads_uint32 tx.nLockTime).map)).of_eq rfl ?_
  rw [BitVec.ofNat_toNat, BitVec.setWidth_eq, UInt32.ofNat_toNat]
  rfl

/-- The whole of the extended format. -/
theorem reads_transaction_extended (h : tx.Fits) :
    Reads (unserializeTransaction true)
      (Bytes.le 4 tx.nVersion.toNat ++ (([0, 1] ++ (serVector CTxIn.serialize tx.vin ++
        serVector CTxOut.serialize tx.vout)) ++
        ((tx.vin.flatMap fun txin => serVector serBytes txin.scriptWitness) ++
          Bytes.le 4 tx.nLockTime.toNat))) tx := by
  refine (reads_bitVec32 tx.nVersion).bind ((reads_insOuts_extended h).bind ?_)
  have hflags : Reads (failIf (0 != 0) "Unknown transaction optional data") [] () :=
    reads_failIf (by simp)
  refine ((reads_witnesses h).bind (hflags.bind (reads_uint32 tx.nLockTime).map)).of_eq rfl ?_
  rw [BitVec.ofNat_toNat, BitVec.setWidth_eq, UInt32.ofNat_toNat]

/-- A transaction whose basic form is not taken for the extended one. -/
def CTransaction.Plain (tx : CTransaction) : Prop := tx.vin ≠ [] ∨ tx.vout = []

/-- A transaction without inputs and outputs: the number of outputs is read as
the flags. -/
theorem reads_transaction_empty (hvin : tx.vin = []) (hvout : tx.vout = []) :
    Reads (unserializeTransaction true)
      (Bytes.le 4 tx.nVersion.toNat ++ ([0, 0] ++ Bytes.le 4 tx.nLockTime.toNat)) tx := by
  have hinsouts : Reads (readInsOuts true) [0, 0] (0, [], []) := fun _ => rfl
  have hwitness : Reads (readWitnesses true 0 []) [] (0, []) := fun _ => rfl
  have hflags : Reads (failIf (0 != 0) "Unknown transaction optional data") [] () :=
    reads_failIf (by simp)
  refine ((reads_bitVec32 tx.nVersion).bind (hinsouts.bind (hwitness.bind
    (hflags.bind (reads_uint32 tx.nLockTime).map)))).of_eq rfl ?_
  rw [BitVec.ofNat_toNat, BitVec.setWidth_eq, UInt32.ofNat_toNat]
  obtain ⟨nVersion, vin, vout, nLockTime⟩ := tx
  subst hvin hvout
  rfl

/-- Reading a transaction that was written, in either format. -/
theorem reads_transaction (h : tx.Fits) (fAllowWitness : Bool) (hplain : tx.Plain) :
    Reads (unserializeTransaction fAllowWitness) (serializeTransaction fAllowWitness tx)
      (if fAllowWitness then tx else tx.bare) := by
  by_cases hext : (fAllowWitness && tx.hasWitness) = true
  · obtain ⟨hallow, _⟩ := (Bool.and_eq_true _ _).mp hext
    subst hallow
    refine (reads_transaction_extended h).of_eq ?_ rfl
    simp only [serializeTransaction, hext, if_true, List.append_assoc]
  · have hbytes : serializeTransaction fAllowWitness tx =
        Bytes.le 4 tx.nVersion.toNat ++ ((serVector CTxIn.serialize tx.vin ++
          serVector CTxOut.serialize tx.vout) ++ Bytes.le 4 tx.nLockTime.toNat) := by
      simp only [serializeTransaction, hext, Bool.false_eq_true, if_false, List.append_assoc,
        List.nil_append]
    rw [hbytes]
    cases fAllowWitness with
    | false => exact reads_transaction_plain h false (Or.inr rfl)
    | true =>
      by_cases hvin : tx.vin = []
      · have hvout : tx.vout = [] := hplain.resolve_left (not_not.mpr hvin)
        refine (reads_transaction_empty hvin hvout).of_eq ?_ rfl
        rw [hvin, hvout]
        rfl
      · have hno : tx.hasWitness = false := by simpa using hext
        refine (reads_transaction_plain h true (Or.inl hvin)).of_eq rfl ?_
        rw [if_pos rfl, CTransaction.bare, bare_of_not_hasWitness hno]

/-- What is written of a transaction with an input is read back, whatever
follows. Without the witness on both sides it is read without one. -/
theorem unserialize_serialize (tx : CTransaction) (suffix : List UInt8) (h : tx.Fits)
    (hvin : tx.vin ≠ []) :
    unserializeTransaction true (serializeTransaction true tx ++ suffix) = .ok (tx, suffix) ∧
      unserializeTransaction false (serializeTransaction false tx ++ suffix) =
        .ok ({ tx with vin := tx.vin.map fun txin => { txin with scriptWitness := [] } }, suffix) :=
  ⟨reads_transaction h true (Or.inl hvin) suffix, reads_transaction h false (Or.inl hvin) suffix⟩

/-- A transaction with one input and a witness, for the proofs below. -/
def sampleWitnessTx : CTransaction where
  nVersion := 1
  vin := [{ prevout := ⟨7, 1⟩, scriptSig := [1, 2], scriptWitness := [[3], []] }]
  vout := [⟨5, [6]⟩]
  nLockTime := 9

theorem sampleWitnessTx_fits : sampleWitnessTx.Fits where
  vin := by simp [sizeOk, sampleWitnessTx, MAX_SIZE]
  vout := by simp [sizeOk, sampleWitnessTx, MAX_SIZE]
  ins := by
    simp only [sampleWitnessTx, List.mem_singleton, forall_eq]
    exact ⟨by simp [sizeOk, MAX_SIZE], by simp [sizeOk, MAX_SIZE], by simp [sizeOk, MAX_SIZE]⟩
  outs := by
    simp only [sampleWitnessTx, List.mem_singleton, forall_eq]
    exact ⟨by simp, by simp, by simp [sizeOk, MAX_SIZE]⟩

theorem unserialize_serialize_sample :
    sampleWitnessTx.hasWitness = true ∧
      unserializeTransaction true (serializeTransaction true sampleWitnessTx ++ [8]) =
        .ok (sampleWitnessTx, [8]) :=
  ⟨rfl, (unserialize_serialize sampleWitnessTx [8] sampleWitnessTx_fits (by simp
    [sampleWitnessTx])).1⟩

/-! ## What is accepted -/

section Accepted

variable {input rest : List UInt8} {n : Nat} {vin : List CTxIn}

theorem readLe_ok {len : Nat} (h : readLe len input = .ok (n, rest)) :
    input = Bytes.le len n ++ rest ∧ n < 256 ^ len := by
  obtain ⟨b, mid, hb, h⟩ := bind_eq_ok h
  obtain ⟨rfl, rfl⟩ := pure_eq_ok h
  obtain ⟨hin, hlen⟩ := take_eq_ok hb
  have hle := Bytes.le_ofLe b
  have hlt := Bytes.ofLe_lt b
  rw [hlen] at hle hlt
  exact ⟨by rw [hle, hin], hlt⟩

theorem toNat_uint32 (h : n < 256 ^ 4) : (UInt32.ofNat n).toNat = n := by
  rw [UInt32.toNat_ofNat']
  omega

theorem toNat_bitVec32 (h : n < 256 ^ 4) : (BitVec.ofNat 32 n).toNat = n := by
  rw [BitVec.toNat_ofNat]
  omega

theorem takes_readUint256 : Takes readUint256 Uint256.bytes := by
  intro input a rest h
  obtain ⟨n, mid, hn, h⟩ := bind_eq_ok h
  obtain ⟨rfl, rfl⟩ := pure_eq_ok h
  obtain ⟨hin, hlt⟩ := readLe_ok hn
  have hcut : (BitVec.ofNat 256 n).toNat = n := by
    rw [BitVec.toNat_ofNat]
    omega
  rw [hin, Uint256.bytes, hcut]

theorem takes_readInt64 : Takes readInt64 fun n => Bytes.le 8 (n % 2 ^ 64).toNat := by
  intro input a rest h
  obtain ⟨n, mid, hn, h⟩ := bind_eq_ok h
  obtain ⟨rfl, rfl⟩ := pure_eq_ok h
  obtain ⟨hin, hlt⟩ := readLe_ok hn
  have hcut : (int64 (n : Int) % 2 ^ 64).toNat = n := by
    unfold int64
    omega
  beta_reduce
  rw [hin, hcut]

theorem readCanonical_ok {len low : Nat} (h : readCanonical len low input = .ok (n, rest)) :
    input = Bytes.le len n ++ rest ∧ low ≤ n ∧ n < 256 ^ len := by
  obtain ⟨m, mid, hm, h⟩ := bind_eq_ok h
  obtain ⟨u, mid', hlow, h⟩ := bind_eq_ok h
  obtain ⟨rfl, rfl⟩ := pure_eq_ok h
  obtain ⟨hbad, rfl⟩ := failIf_eq_ok hlow
  obtain ⟨hin, hlt⟩ := readLe_ok hm
  exact ⟨hin, by simpa using hbad, hlt⟩

/-- Only the shortest form of a size is accepted. -/
theorem takes_readCompactSize : Takes readCompactSize compactSize := by
  intro input n rest h
  obtain ⟨first, mid, hfirst, h⟩ := bind_eq_ok h
  obtain ⟨m, mid', hm, h⟩ := bind_eq_ok h
  obtain ⟨u, mid'', hmax, h⟩ := bind_eq_ok h
  obtain ⟨rfl, rfl⟩ := pure_eq_ok h
  obtain ⟨_, rfl⟩ := failIf_eq_ok hmax
  obtain ⟨hin, hlt⟩ := readLe_ok hfirst
  rw [hin]
  unfold compactSize
  by_cases h1 : first < 253
  · rw [if_pos h1] at hm
    obtain ⟨rfl, rfl⟩ := pure_eq_ok hm
    rw [if_pos h1]
    rfl
  · rw [if_neg h1] at hm
    by_cases h2 : first = 253
    · rw [if_pos h2] at hm
      obtain ⟨hmid, hlow, hhigh⟩ := readCanonical_ok hm
      rw [hmid, h2, if_neg (by omega), if_pos (by omega)]
      rfl
    · rw [if_neg h2] at hm
      by_cases h3 : first = 254
      · rw [if_pos h3] at hm
        obtain ⟨hmid, hlow, hhigh⟩ := readCanonical_ok hm
        rw [hmid, h3, if_neg (by omega), if_neg (by omega), if_pos (by omega)]
        rfl
      · rw [if_neg h3] at hm
        obtain ⟨hmid, hlow, hhigh⟩ := readCanonical_ok hm
        have h4 : first = 255 := by omega
        rw [hmid, h4, if_neg (by omega), if_neg (by omega), if_neg (by omega)]
        rfl

theorem takes_readVector {α : Type} {r : Reader String α} {enc : α → List UInt8}
    (hr : Takes r enc) : Takes (readVector r) (serVector enc) := by
  intro input l rest h
  obtain ⟨n, mid, hn, h⟩ := bind_eq_ok h
  obtain ⟨hmid, hlen⟩ := many_eq_ok hr h
  rw [takes_readCompactSize _ _ _ hn, hmid, serVector, hlen, List.append_assoc]

theorem takes_readByteVector : Takes readByteVector serBytes := by
  intro input b rest h
  obtain ⟨n, mid, hn, h⟩ := bind_eq_ok h
  obtain ⟨hmid, hlen⟩ := take_eq_ok h
  rw [takes_readCompactSize _ _ _ hn, hmid, serBytes, hlen, List.append_assoc]

theorem takes_outPoint : Takes COutPoint.unserialize COutPoint.serialize := by
  intro input o rest h
  obtain ⟨hash, mid, hhash, h⟩ := bind_eq_ok h
  obtain ⟨n, mid', hn, h⟩ := bind_eq_ok h
  obtain ⟨rfl, rfl⟩ := pure_eq_ok h
  obtain ⟨hin, hlt⟩ := readLe_ok hn
  rw [takes_readUint256 _ _ _ hhash, hin, COutPoint.serialize, toNat_uint32 hlt,
    List.append_assoc]

theorem takes_txIn : Takes CTxIn.unserialize CTxIn.serialize := by
  intro input txin rest h
  obtain ⟨prevout, mid, hprevout, h⟩ := bind_eq_ok h
  obtain ⟨scriptSig, mid', hsig, h⟩ := bind_eq_ok h
  obtain ⟨n, mid'', hn, h⟩ := bind_eq_ok h
  obtain ⟨rfl, rfl⟩ := pure_eq_ok h
  obtain ⟨hin, hlt⟩ := readLe_ok hn
  rw [takes_outPoint _ _ _ hprevout, takes_readByteVector _ _ _ hsig, hin, CTxIn.serialize,
    toNat_uint32 hlt, List.append_assoc, List.append_assoc]

theorem takes_txOut : Takes CTxOut.unserialize CTxOut.serialize := by
  intro input out rest h
  obtain ⟨nValue, mid, hvalue, h⟩ := bind_eq_ok h
  obtain ⟨script, mid', hscript, h⟩ := bind_eq_ok h
  obtain ⟨rfl, rfl⟩ := pure_eq_ok h
  rw [takes_readInt64 _ _ _ hvalue, takes_readByteVector _ _ _ hscript, CTxOut.serialize,
    List.append_assoc]

/-- An input is read without a witness. -/
theorem txIn_bare {txin : CTxIn} (h : CTxIn.unserialize input = .ok (txin, rest)) :
    txin.scriptWitness = [] := by
  obtain ⟨prevout, mid, _, h⟩ := bind_eq_ok h
  obtain ⟨scriptSig, mid', _, h⟩ := bind_eq_ok h
  obtain ⟨n, mid'', _, h⟩ := bind_eq_ok h
  obtain ⟨rfl, rfl⟩ := pure_eq_ok h
  rfl

theorem many_txIn_bare (h : many CTxIn.unserialize n input = .ok (vin, rest)) :
    ∀ txin ∈ vin, txin.scriptWitness = [] := by
  induction n generalizing input vin with
  | zero =>
    obtain ⟨rfl, rfl⟩ := pure_eq_ok h
    simp
  | succ n ih =>
    obtain ⟨a, mid, ha, h⟩ := bind_eq_ok h
    obtain ⟨as, mid', has, h⟩ := bind_eq_ok h
    obtain ⟨rfl, rfl⟩ := pure_eq_ok h
    intro txin hin
    rcases List.mem_cons.mp hin with rfl | hin
    · exact txIn_bare ha
    · exact ih has txin hin

theorem vin_bare (h : readVector CTxIn.unserialize input = .ok (vin, rest)) :
    ∀ txin ∈ vin, txin.scriptWitness = [] := by
  obtain ⟨n, mid, _, h⟩ := bind_eq_ok h
  exact many_txIn_bare h

/-- The witnesses that were read, one stack for each input. -/
theorem each_readWitness_ok {vin' : List CTxIn}
    (h : each readWitness vin input = .ok (vin', rest)) :
    input = (vin'.flatMap fun txin => serVector serBytes txin.scriptWitness) ++ rest ∧
      vin'.length = vin.length ∧
      vin'.flatMap CTxIn.serialize = vin.flatMap CTxIn.serialize := by
  induction vin generalizing input vin' with
  | nil =>
    obtain ⟨rfl, rfl⟩ := pure_eq_ok h
    exact ⟨rfl, rfl, rfl⟩
  | cons txin vin ih =>
    obtain ⟨a, mid, ha, h⟩ := bind_eq_ok h
    obtain ⟨as, mid', has, h⟩ := bind_eq_ok h
    obtain ⟨rfl, rfl⟩ := pure_eq_ok h
    obtain ⟨stack, mid'', hstack, ha⟩ := bind_eq_ok ha
    obtain ⟨rfl, rfl⟩ := pure_eq_ok ha
    obtain ⟨hmid, hlen, hser⟩ := ih has
    refine ⟨?_, by rw [List.length_cons, List.length_cons, hlen], ?_⟩
    · rw [takes_readVector takes_readByteVector _ _ _ hstack, hmid, List.flatMap_cons,
        List.append_assoc]
    · rw [List.flatMap_cons, List.flatMap_cons, hser]
      rfl

end Accepted

/-- The dummy of the extended format and a flag. -/
def extendedForm (bytes : List UInt8) : Bool := bytes[4]? == some 0 && bytes[5]? != some 0

/-- The forms that are accepted: the basic one, without witnesses, and the
extended one. -/
inductive WireForm (bytes : List UInt8) (tx : CTransaction) : Prop
  | basic (hno : tx.hasWitness = false) (hform : extendedForm bytes = false)
      (hbytes : bytes = serializeTransaction true tx)
  | extended (hform : extendedForm bytes = true)
      (hbytes : bytes = Bytes.le 4 tx.nVersion.toNat ++ ([0, 1] ++
        (serVector CTxIn.serialize tx.vin ++ (serVector CTxOut.serialize tx.vout ++
          ((tx.vin.flatMap fun txin => serVector serBytes txin.scriptWitness) ++
            Bytes.le 4 tx.nLockTime.toNat)))))

theorem hasWitness_of_bare (h : ∀ txin ∈ tx.vin, txin.scriptWitness = []) :
    tx.hasWitness = false := by
  rw [CTransaction.hasWitness, List.any_eq_false]
  intro txin hin
  simp [h txin hin]

/-- The byte behind the version is zero only for an empty vector. -/
theorem compactSize_head (hn : n ≠ 0) : ∃ b rest, compactSize n = b :: rest ∧ b ≠ 0 := by
  unfold compactSize
  split
  · rename_i h
    refine ⟨UInt8.ofNat n, [], rfl, fun hzero => hn ?_⟩
    have := congrArg UInt8.toNat hzero
    rw [UInt8.toNat_ofNat'] at this
    simp only [UInt8.toNat_zero] at this
    omega
  · split
    · exact ⟨_, _, rfl, by decide⟩
    · split
      · exact ⟨_, _, rfl, by decide⟩
      · exact ⟨_, _, rfl, by decide⟩

theorem extendedForm_cons {ver : List UInt8} {b : UInt8} (hver : ver.length = 4) :
    extendedForm (ver ++ b :: rest) = (b == 0 && rest[0]? != some 0) := by
  have h4 : (ver ++ b :: rest)[4]? = some b := by
    rw [← hver, List.getElem?_append_right (le_refl _)]
    simp
  have h5 : (ver ++ b :: rest)[5]? = rest[0]? := by
    rw [List.getElem?_append_right (by omega), hver]
    rfl
  rw [extendedForm, h4, h5]
  rfl

/-- The three ways in which the inputs and outputs are read. -/
inductive InsOuts (input rest : List UInt8) (flags : Nat) (vin : List CTxIn) (vout : List CTxOut) :
    Prop
  | basic (hflags : flags = 0) (hvin : vin ≠ [])
      (hinput : input = serVector CTxIn.serialize vin ++ (serVector CTxOut.serialize vout ++ rest))
  | empty (hflags : flags = 0) (hvin : vin = []) (hvout : vout = [])
      (hinput : input = [0, 0] ++ rest)
  | extended (hflags : flags ≠ 0) (hlt : flags < 256)
      (hinput : input = [0, UInt8.ofNat flags] ++
        (serVector CTxIn.serialize vin ++ (serVector CTxOut.serialize vout ++ rest)))

theorem readInsOuts_ok {flags : Nat} (h : readInsOuts true input = .ok ((flags, vin, vout), rest)) :
    InsOuts input rest flags vin vout ∧ ∀ txin ∈ vin, txin.scriptWitness = [] := by
  obtain ⟨vin0, m0, hvin0, h⟩ := bind_eq_ok h
  have hinput := takes_readVector takes_txIn _ _ _ hvin0
  by_cases hempty : (vin0.isEmpty && true) = true
  · rw [if_pos hempty] at h
    have hnil : vin0 = [] := by simpa using hempty
    have hdummy : input = [0] ++ m0 := by
      rw [hinput, hnil]
      simp [serVector, compactSize]
    obtain ⟨f, m1, hf, h⟩ := bind_eq_ok h
    obtain ⟨hm0, hlt⟩ := readLe_ok hf
    by_cases hzero : f ≠ 0
    · rw [if_pos hzero] at h
      obtain ⟨vin1, m2, hvin1, h⟩ := bind_eq_ok h
      obtain ⟨vout1, m3, hvout1, h⟩ := bind_eq_ok h
      obtain ⟨heq, rfl⟩ := pure_eq_ok h
      obtain ⟨rfl, rfl, rfl⟩ := heq
      refine ⟨.extended hzero (by omega) ?_, vin_bare hvin1⟩
      rw [hdummy, hm0, takes_readVector takes_txIn _ _ _ hvin1,
        takes_readVector takes_txOut _ _ _ hvout1]
      rfl
    · have hf0 : f = 0 := not_not.mp hzero
      rw [hf0] at h hm0
      obtain ⟨heq, rfl⟩ := pure_eq_ok h
      obtain ⟨rfl, rfl, rfl⟩ := heq
      refine ⟨.empty rfl rfl rfl ?_, by simp⟩
      rw [hdummy, hm0]
      rfl
  · rw [if_neg hempty] at h
    obtain ⟨vout1, m1, hvout1, h⟩ := bind_eq_ok h
    obtain ⟨heq, rfl⟩ := pure_eq_ok h
    obtain ⟨rfl, rfl, rfl⟩ := heq
    refine ⟨.basic rfl (by simpa using hempty) ?_, vin_bare hvin0⟩
    rw [hinput, takes_readVector takes_txOut _ _ _ hvout1]

/-- The witnesses are there for the flag 1 only. -/
theorem readWitnesses_ok {flags : Nat} {vin' : List CTxIn}
    (h : readWitnesses true flags vin input = .ok ((0, vin'), rest)) :
    (flags = 0 ∧ vin' = vin ∧ input = rest) ∨
      (flags = 1 ∧ each readWitness vin input = .ok (vin', rest)) := by
  unfold readWitnesses at h
  by_cases hodd : (decide (flags % 2 = 1) && true) = true
  · rw [if_pos hodd] at h
    obtain ⟨vin1, m1, hvin1, h⟩ := bind_eq_ok h
    obtain ⟨heq, rfl⟩ := pure_eq_ok h
    rw [Prod.mk.injEq] at heq
    obtain ⟨hxor, rfl⟩ := heq
    have hone : flags = 1 := by
      have := congrArg (· ^^^ 1) hxor
      simpa [Nat.xor_assoc] using this
    exact Or.inr ⟨hone, hvin1⟩
  · rw [if_neg hodd] at h
    obtain ⟨heq, rfl⟩ := pure_eq_ok h
    rw [Prod.mk.injEq] at heq
    exact Or.inl ⟨heq.1, heq.2.symm, rfl⟩

/-- Every accepted string has one of the two forms. -/
theorem wireForm_of_ok (h : unserializeTransaction true bytes = .ok (tx, [])) :
    WireForm bytes tx := by
  obtain ⟨nVersion, m1, hver, h⟩ := bind_eq_ok h
  obtain ⟨⟨flags, vin, vout⟩, m2, hinsouts, h⟩ := bind_eq_ok h
  obtain ⟨⟨flags', vin'⟩, m3, hwit, h⟩ := bind_eq_ok h
  obtain ⟨u, m4, hfail, h⟩ := bind_eq_ok h
  obtain ⟨nLockTime, m5, hlock, h⟩ := bind_eq_ok h
  obtain ⟨rfl, rfl⟩ := pure_eq_ok h
  obtain ⟨hzero, rfl⟩ := failIf_eq_ok hfail
  obtain ⟨hbytes, hverlt⟩ := readLe_ok hver
  obtain ⟨hm3, hlocklt⟩ := readLe_ok hlock
  obtain ⟨hform, hbare⟩ := readInsOuts_ok hinsouts
  have hflags' : flags' = 0 := by simpa using hzero
  subst hflags'
  have hlen : (Bytes.le 4 nVersion).length = 4 := Bytes.length_le 4 nVersion
  rcases readWitnesses_ok hwit with ⟨hflags, rfl, rfl⟩ | ⟨hflags, heach⟩
  · have hno := (hasWitness_of_bare hbare : CTransaction.hasWitness
      ⟨BitVec.ofNat 32 nVersion, vin', vout, UInt32.ofNat nLockTime⟩ = false)
    cases hform with
    | basic _ hvin hinput =>
      refine .basic hno ?_ ?_
      · obtain ⟨b, rest, hhead, hb⟩ := compactSize_head (n := vin'.length) (by simpa using hvin)
        rw [hbytes, hinput, serVector, hhead, List.append_assoc, List.cons_append,
          extendedForm_cons hlen]
        simp [hb]
      · simp only [serializeTransaction, hno, Bool.and_false, Bool.false_eq_true, if_false,
          toNat_bitVec32 hverlt, toNat_uint32 hlocklt, hbytes, hinput, hm3, List.append_nil,
          List.append_assoc]
    | empty _ hvin hvout hinput =>
      refine .basic hno ?_ ?_
      · rw [hbytes, hinput]
        show extendedForm (Bytes.le 4 nVersion ++ 0 :: (0 :: _)) = false
        rfl
      · subst hvin hvout
        simp only [serializeTransaction, hno, Bool.and_false, Bool.false_eq_true, if_false,
          toNat_bitVec32 hverlt, toNat_uint32 hlocklt, hbytes, hinput, hm3, List.append_nil,
          List.append_assoc]
        rfl
    | extended hne _ _ => exact absurd hflags hne
  · cases hform with
    | basic hzero _ _ => omega
    | empty hzero _ _ _ => omega
    | extended _ _ hinput =>
      subst hflags
      obtain ⟨hm2, hlen', hser⟩ := each_readWitness_ok heach
      refine .extended ?_ ?_
      · rw [hbytes, hinput]
        show extendedForm (Bytes.le 4 nVersion ++ 0 :: (1 :: _)) = true
        rfl
      · have hvin : serVector CTxIn.serialize vin' = serVector CTxIn.serialize vin := by
          rw [serVector, serVector, hlen', hser]
        simp only [toNat_bitVec32 hverlt, toNat_uint32 hlocklt, hvin, hbytes, hinput, hm2, hm3,
          List.append_nil]
        rfl

/-- The extended form with witnesses is the one that is written. -/
theorem serialize_extended (h : tx.hasWitness = true) :
    serializeTransaction true tx = Bytes.le 4 tx.nVersion.toNat ++ ([0, 1] ++
      (serVector CTxIn.serialize tx.vin ++ (serVector CTxOut.serialize tx.vout ++
        ((tx.vin.flatMap fun txin => serVector serBytes txin.scriptWitness) ++
          Bytes.le 4 tx.nLockTime.toNat)))) := by
  simp only [serializeTransaction, h, Bool.and_true, if_true, List.append_assoc]

/-- The bytes are written again, unless they have the extended form without
any witness. -/
theorem serialize_unserialize_iff (h : unserializeTransaction true bytes = .ok (tx, [])) :
    serializeTransaction true tx = bytes ↔ (extendedForm bytes = true → tx.hasWitness = true) := by
  cases wireForm_of_ok h with
  | basic hno hform hbytes =>
    rw [hform]
    constructor
    · intro _ hfalse
      cases hfalse
    · exact fun _ => hbytes.symm
  | extended hform hbytes =>
    constructor
    · intro heq _
      by_contra hno
      -- Without the dummy and the flag, less is written.
      have hno' : tx.hasWitness = false := by simpa using hno
      have hlen := congrArg List.length (heq.trans hbytes)
      simp only [serializeTransaction, hno', Bool.and_false, Bool.false_eq_true, if_false,
        List.length_append, List.length_nil, List.length_cons, Bytes.length_le] at hlen
      omega
    · intro hwit
      rw [serialize_extended (hwit hform), hbytes]

/-- A string that is accepted as a transaction is the one that would be
written for it, exactly when it does not have the extended form without any
witness. Two such strings for one transaction are the same. -/
theorem one_wire_encoding (bytes : List UInt8) (tx : CTransaction)
    (h : unserializeTransaction true bytes = .ok (tx, [])) :
    (serializeTransaction true tx = bytes ↔
      (extendedForm bytes = true → tx.hasWitness = true)) ∧
    ((extendedForm bytes = true → tx.hasWitness = true) →
      ∀ bytes', unserializeTransaction true bytes' = .ok (tx, []) →
        (extendedForm bytes' = true → tx.hasWitness = true) → bytes' = bytes) := by
  refine ⟨serialize_unserialize_iff h, fun hform bytes' h' hform' => ?_⟩
  exact ((serialize_unserialize_iff h').mpr hform').symm.trans
    ((serialize_unserialize_iff h).mpr hform)

/-- The bytes of `sampleWitnessTx`. -/
def sampleWire : List UInt8 :=
  [1, 0, 0, 0, 0, 1, 1, 7] ++ List.replicate 31 0 ++
    [1, 0, 0, 0, 2, 1, 2, 255, 255, 255, 255, 1, 5, 0, 0, 0, 0, 0, 0, 0, 1, 6, 2, 1, 3, 0,
      9, 0, 0, 0]

theorem one_wire_encoding_sample :
    unserializeTransaction true sampleWire = .ok (sampleWitnessTx, []) ∧
      serializeTransaction true sampleWitnessTx = sampleWire := by
  have h : unserializeTransaction true sampleWire = .ok (sampleWitnessTx, []) := by
    decide +kernel
  exact ⟨h, (one_wire_encoding sampleWire sampleWitnessTx h).1.mpr fun _ => rfl⟩

/-- The extended form of a transaction that has no witness. -/
def superfluousForm (tx : CTransaction) : List UInt8 :=
  Bytes.le 4 tx.nVersion.toNat ++ [0, 1] ++ serVector CTxIn.serialize tx.vin ++
    serVector CTxOut.serialize tx.vout ++
    (tx.vin.flatMap fun txin => serVector serBytes txin.scriptWitness) ++
    Bytes.le 4 tx.nLockTime.toNat

/-- A transaction without a witness is read from two strings. -/
theorem two_wire_encodings :
    superfluousForm sampleWitnessTx.bare ≠ serializeTransaction true sampleWitnessTx.bare ∧
      unserializeTransaction true (superfluousForm sampleWitnessTx.bare) =
        .ok (sampleWitnessTx.bare, []) ∧
      unserializeTransaction true (serializeTransaction true sampleWitnessTx.bare) =
        .ok (sampleWitnessTx.bare, []) := by
  decide +kernel

/-! ## Blocks -/

/-- The vectors are within the limit, and the indices are `int`. -/
structure CAuxPow.Fits (a : CAuxPow) : Prop where
  tx : a.tx.Fits
  vMerkleBranch : sizeOk a.vMerkleBranch
  vChainMerkleBranch : sizeOk a.vChainMerkleBranch
  nIndex : -2 ^ 31 ≤ a.nIndex ∧ a.nIndex < 2 ^ 31
  nChainIndex : -2 ^ 31 ≤ a.nChainIndex ∧ a.nChainIndex < 2 ^ 31

/-- The auxpow is there exactly when the version says so. -/
structure CBlockHeader.Fits (b : CBlockHeader) : Prop where
  flagged : b.auxpow.isSome = b.isAuxpow
  auxpow : ∀ a, b.auxpow = some a → a.Fits

structure CBlock.Fits (b : CBlock) : Prop where
  header : b.toCBlockHeader.Fits
  vtx : sizeOk b.vtx
  txs : ∀ tx ∈ b.vtx, tx.Fits

/-- An auxpow as it is read: without the witness unless it is allowed. -/
def CAuxPow.allowed (fAllowWitness : Bool) (a : CAuxPow) : CAuxPow :=
  { a with tx := if fAllowWitness then a.tx else a.tx.bare }

theorem reads_pureHeader (b : CPureBlockHeader) :
    Reads CPureBlockHeader.unserialize b.serialize b := by
  unfold CPureBlockHeader.unserialize CPureBlockHeader.serialize
  refine (reads_bitVec32 b.nVersion).bind ?_
  refine (reads_readUint256 b.hashPrevBlock).bind ?_
  refine (reads_readUint256 b.hashMerkleRoot).bind ?_
  refine (reads_uint32 b.nTime).bind ?_
  refine (reads_uint32 b.nBits).bind ?_
  refine (reads_uint32 b.nNonce).map.of_eq rfl ?_
  rw [BitVec.ofNat_toNat, BitVec.setWidth_eq, UInt32.ofNat_toNat, UInt32.ofNat_toNat,
    UInt32.ofNat_toNat]

theorem reads_branch {branch : List Uint256} (h : sizeOk branch) :
    Reads (readVector readUint256) (serVector Uint256.bytes branch) branch :=
  reads_readVector Uint256.bytes h fun hash _ => reads_readUint256 hash

theorem reads_auxpow {a : CAuxPow} (h : a.Fits) (fAllowWitness : Bool) (hplain : a.tx.Plain) :
    Reads (CAuxPow.unserialize fAllowWitness) (a.serialize fAllowWitness)
      (a.allowed fAllowWitness) := by
  unfold CAuxPow.unserialize CAuxPow.serialize
  simp only [List.append_assoc]
  refine (reads_transaction h.tx fAllowWitness hplain).bind ?_
  refine (reads_readUint256 a.hashBlock).bind ?_
  refine (reads_branch h.vMerkleBranch).bind ?_
  refine (reads_readInt32 h.nIndex.1 h.nIndex.2).bind ?_
  refine (reads_branch h.vChainMerkleBranch).bind ?_
  refine (reads_readInt32 h.nChainIndex.1 h.nChainIndex.2).bind ?_
  exact (reads_pureHeader a.parentBlock).map

theorem reads_header {b : CBlockHeader} (h : b.Fits) (fAllowWitness : Bool)
    (hplain : ∀ a, b.auxpow = some a → a.tx.Plain) :
    Reads (CBlockHeader.unserialize fAllowWitness) (b.serialize fAllowWitness)
      { b with auxpow := b.auxpow.map (CAuxPow.allowed fAllowWitness) } := by
  refine (reads_pureHeader b.toCPureBlockHeader).bind ?_
  cases haux : b.auxpow with
  | none =>
    have hflag : b.isAuxpow = false := by
      rw [← h.flagged, haux]
      rfl
    rw [hflag, if_neg (by simp), if_neg (by simp)]
    exact Reads.pure _
  | some a =>
    have hflag : b.isAuxpow = true := by
      rw [← h.flagged, haux]
      rfl
    rw [hflag, if_pos rfl, if_pos rfl]
    exact (reads_auxpow (h.auxpow a haux) fAllowWitness (hplain a haux)).map.map

/-- What is written of a header and of a block is read back, whatever follows,
when no transaction in it has outputs without an input. The hash of a header
does not depend on its auxpow. -/
theorem unserialize_serialize_block (b : CBlock) (suffix : List UInt8) (h : b.Fits)
    (hplain : ∀ a, b.auxpow = some a → a.tx.Plain) (hplains : ∀ tx ∈ b.vtx, tx.Plain) :
    CBlockHeader.unserialize true (b.toCBlockHeader.serialize true ++ suffix) =
        .ok (b.toCBlockHeader, suffix) ∧
      CBlock.unserialize true (b.serialize true ++ suffix) =
        .ok ({ b with fChecked := false }, suffix) ∧
      ∀ (H : Hashes) (other : Option CAuxPow),
        ({ b.toCBlockHeader with auxpow := other } : CBlockHeader).getHash H = b.getHash H := by
  have hid : b.auxpow.map (CAuxPow.allowed true) = b.auxpow := by
    cases b.auxpow with
    | none => rfl
    | some a => rfl
  have hheader := reads_header h.header true hplain
  rw [hid] at hheader
  refine ⟨hheader suffix, ?_, fun H other => rfl⟩
  have hvtx : Reads (readVector (unserializeTransaction true))
      (serVector (serializeTransaction true) b.vtx) b.vtx :=
    reads_readVector _ h.vtx fun tx htx => reads_transaction (h.txs tx htx) true (hplains tx htx)
  exact hheader.bind hvtx.map suffix

/-- A merge-mined block of one transaction, for the proofs below. -/
def sampleAuxBlock (tx : CTransaction) : CBlock where
  nVersion := 0x20100
  hashPrevBlock := 1
  hashMerkleRoot := 2
  nTime := 3
  nBits := 4
  nNonce := 5
  auxpow := some
    { tx := sampleWitnessTx, hashBlock := 6, vMerkleBranch := [7], nIndex := 0
      vChainMerkleBranch := [8], nChainIndex := -1
      parentBlock := { nVersion := 1, hashPrevBlock := 9, hashMerkleRoot := 10
                       nTime := 11, nBits := 12, nNonce := 13 } }
  vtx := [tx]

theorem sampleAuxBlock_fits (h : tx.Fits) : (sampleAuxBlock tx).Fits where
  header := by
    have hflag : (sampleAuxBlock tx).isAuxpow = true := by
      show (sampleAuxBlock sampleWitnessTx).isAuxpow = true
      decide
    refine ⟨hflag.symm, ?_⟩
    simp only [sampleAuxBlock, Option.some.injEq, forall_eq']
    exact ⟨sampleWitnessTx_fits, by simp [sizeOk, MAX_SIZE], by simp [sizeOk, MAX_SIZE], by simp,
      by simp⟩
  vtx := by simp [sizeOk, sampleAuxBlock, MAX_SIZE]
  txs := by
    simp only [sampleAuxBlock, List.mem_singleton, forall_eq]
    exact h

theorem unserialize_serialize_block_sample :
    (sampleAuxBlock sampleWitnessTx).isAuxpow = true ∧
      CBlock.unserialize true ((sampleAuxBlock sampleWitnessTx).serialize true ++ [8]) =
        .ok (sampleAuxBlock sampleWitnessTx, [8]) := by
  have hplain : sampleWitnessTx.Plain := Or.inl (by simp [sampleWitnessTx])
  refine ⟨by decide, (unserialize_serialize_block (sampleAuxBlock sampleWitnessTx) [8]
    (sampleAuxBlock_fits sampleWitnessTx_fits) ?_ ?_).2.1⟩
  · simp only [sampleAuxBlock, Option.some.injEq, forall_eq']
    exact hplain
  · simp only [sampleAuxBlock, List.mem_singleton, forall_eq]
    exact hplain

/-- A block whose transaction has an output and no input is not read back: the
number of outputs is taken for the flags. -/
theorem block_without_inputs_not_read :
    (sampleAuxBlock { sampleWitnessTx with vin := [] }).auxpow.isSome =
        (sampleAuxBlock { sampleWitnessTx with vin := [] }).isAuxpow ∧
      CBlock.unserialize true ((sampleAuxBlock { sampleWitnessTx with vin := [] }).serialize true) =
        .error "CDataStream::read(): end of data" := by
  decide +kernel

end junkcoin
