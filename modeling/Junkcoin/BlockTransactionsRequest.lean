-- The request for transactions of a block (`BlockTransactionsRequest` of
-- `blockencodings.h`): indexes are sent as differences, and the offset that
-- turns them back into indexes has 16 bits.
import Junkcoin.BlockEncodings

namespace junkcoin

open Reader

structure BlockTransactionsRequest where
  blockhash : Uint256
  indexes : List UInt16
  deriving DecidableEq

namespace BlockTransactionsRequest

variable {ds indexes : List UInt16}

/-! ## The message -/

/-- What is written for each index. `next` is zero, or one more than the index before;
the difference becomes a `uint64_t`. -/
def differences : (next : Int) → List UInt16 → List Nat
  | _, [] => []
  | next, index :: indexes =>
    ((index.toNat - next) % 2 ^ 64).toNat :: differences (index.toNat + 1) indexes

def serialize (r : BlockTransactionsRequest) : List UInt8 :=
  r.blockhash.bytes ++ compactSize r.indexes.length ++ (differences 0 r.indexes).flatMap compactSize

def readIndex : Reader String UInt16 := do
  let index ← readCompactSize
  failIf (index > 0xffff) "index overflowed 16 bits"
  pure (UInt16.ofNat index)

/-- The loop over the differences. -/
def addOffsets : (offset : UInt16) → List UInt16 → Reader String (List UInt16)
  | _, [] => pure []
  | offset, d :: ds => do
    failIf (d.toNat + offset.toNat > 0xffff) "indexes overflowed 16 bits"
    let indexes ← addOffsets (d + offset + 1) ds
    pure ((d + offset) :: indexes)

/-- Into a new object. The vector grows by a thousand elements at a time, which bounds what
is allocated for elements that do not come. -/
def unserialize : Reader String BlockTransactionsRequest := do
  let blockhash ← readUint256
  let ds ← readVector readIndex
  let indexes ← addOffsets 0 ds
  pure { blockhash, indexes }

/-- The strictly increasing requests. -/
def Increasing (r : BlockTransactionsRequest) : Prop := r.indexes.Pairwise (· < ·)

instance (r : BlockTransactionsRequest) : Decidable r.Increasing :=
  inferInstanceAs (Decidable (r.indexes.Pairwise _))

/-- A difference as it stands in the message. -/
def serDifference (d : UInt16) : List UInt8 := compactSize d.toNat

/-- No index but the last is 65535: the offset behind it would be 65536. -/
def StaysBelow (offset : Nat) (ds : List UInt16) : Prop :=
  ∀ before after, ds = before ++ after → before ≠ [] → after ≠ [] →
    offset + (before.map UInt16.toNat).sum + before.length ≠ 2 ^ 16

/-! ## Reading -/

theorem takes_readIndex : Takes readIndex serDifference := by
  intro input d rest h
  obtain ⟨n, mid, hn, h⟩ := bind_eq_ok h
  obtain ⟨_, mid', hmax, h⟩ := bind_eq_ok h
  obtain ⟨rfl, rfl⟩ := pure_eq_ok h
  obtain ⟨hle, rfl⟩ := failIf_eq_ok hmax
  have hcut : (UInt16.ofNat n).toNat = n := by
    rw [UInt16.toNat_ofNat']
    simp only [decide_eq_false_iff_not] at hle
    omega
  rw [serDifference, hcut]
  exact takes_readCompactSize _ _ _ hn

theorem reads_readIndex (d : UInt16) : Reads readIndex (serDifference d) d := by
  have hd : d.toNat < 2 ^ 16 := d.toNat_lt
  have hmax : MAX_SIZE = 0x02000000 := rfl
  have hfail : Reads (failIf (decide (d.toNat > 0xffff)) "index overflowed 16 bits") [] () :=
    reads_failIf (decide_eq_false (by omega))
  have hsize : Reads readCompactSize (serDifference d) d.toNat := reads_readCompactSize (by omega)
  refine (hsize.bind (hfail.bind (Reads.pure (UInt16.ofNat d.toNat)))).of_eq ?_ ?_
  · simp
  · exact UInt16.ofNat_toNat

theorem staysBelow_cons {offset : Nat} {d : UInt16} :
    StaysBelow offset (d :: ds) ↔
      (ds ≠ [] → offset + d.toNat + 1 ≠ 2 ^ 16) ∧ StaysBelow (offset + d.toNat + 1) ds := by
  constructor
  · intro h
    refine ⟨fun hds => ?_, fun before after hsplit _ hafter => ?_⟩
    · simpa using h [d] ds rfl (by simp) hds
    · have := h (d :: before) after (by rw [hsplit, List.cons_append]) (by simp) hafter
      simp only [List.map_cons, List.sum_cons, List.length_cons] at this
      omega
  · rintro ⟨hfirst, hrest⟩ before after hsplit hbefore hafter
    cases before with
    | nil => exact absurd rfl hbefore
    | cons x before =>
      obtain ⟨rfl, rfl⟩ : d = x ∧ ds = before ++ after := by simpa using hsplit
      cases before with
      | nil => simpa using hfirst (by simpa using hafter)
      | cons y before =>
        have := hrest (y :: before) after rfl (by simp) hafter
        simp only [List.map_cons, List.sum_cons, List.length_cons] at this ⊢
        omega

/-- The indexes increase from the offset on, unless the offset comes back to zero. -/
theorem addOffsets_spec {offset : UInt16} {input rest : List UInt8}
    (h : addOffsets offset ds input = .ok (indexes, rest)) :
    input = rest ∧
      ((indexes.Pairwise (· < ·) ∧ ∀ i ∈ indexes, offset ≤ i) ↔ StaysBelow offset.toNat ds) := by
  induction ds generalizing offset indexes input with
  | nil =>
    obtain ⟨rfl, rfl⟩ := pure_eq_ok h
    refine ⟨rfl, fun _ before after hsplit hbefore => ?_, by simp⟩
    exact absurd (List.append_eq_nil_iff.mp hsplit.symm).1 hbefore
  | cons d ds ih =>
    obtain ⟨_, mid, hfail, h⟩ := bind_eq_ok h
    obtain ⟨tail, mid', htail, h⟩ := bind_eq_ok h
    obtain ⟨rfl, rfl⟩ := pure_eq_ok h
    obtain ⟨hle, rfl⟩ := failIf_eq_ok hfail
    obtain ⟨rfl, hiff⟩ := ih htail
    simp only [decide_eq_false_iff_not] at hle
    have hindex : (d + offset).toNat = d.toNat + offset.toNat := by
      rw [UInt16.toNat_add]
      omega
    refine ⟨rfl, ?_⟩
    rw [staysBelow_cons, List.pairwise_cons]
    by_cases hlast : d.toNat + offset.toNat = 0xffff
    · -- the offset wraps: nothing that follows is greater than 65535
      cases ds with
      | nil =>
        obtain ⟨rfl, -⟩ := pure_eq_ok htail
        simp [StaysBelow, UInt16.le_iff_toNat_le, hindex]
      | cons d' ds =>
        obtain ⟨_, mid, _, h⟩ := bind_eq_ok htail
        obtain ⟨tail', mid', _, h⟩ := bind_eq_ok h
        obtain ⟨rfl, rfl⟩ := pure_eq_ok h
        have hbig : ¬ (d + offset < d' + (d + offset + 1)) := by
          have := (d' + (d + offset + 1)).toNat_lt
          rw [UInt16.lt_iff_toNat_lt, hindex]
          omega
        have hwrap : offset.toNat + d.toNat + 1 = 2 ^ 16 := by omega
        simp [hbig, hwrap]
    · have hnext : (d + offset + 1).toNat = offset.toNat + d.toNat + 1 := by
        rw [UInt16.toNat_add, hindex]
        simp only [UInt16.toNat_one]
        omega
      rw [hnext] at hiff
      rw [← hiff]
      simp only [List.mem_cons, forall_eq_or_imp, UInt16.lt_iff_toNat_lt, UInt16.le_iff_toNat_le,
        hindex, hnext]
      constructor
      · rintro ⟨⟨hlt, hpair⟩, -, -⟩
        refine ⟨fun _ => by omega, hpair, fun i hi => ?_⟩
        have := hlt i hi
        omega
      · rintro ⟨-, hpair, hge⟩
        refine ⟨⟨fun i hi => ?_, hpair⟩, by omega, fun i hi => ?_⟩
        · have := hge i hi
          omega
        · have := hge i hi
          omega

/-! ## Writing -/

/-- The differences of increasing indexes are small, and lead back to the indexes. -/
theorem reads_differences (offset : UInt16) (next : Nat) (hpair : indexes.Pairwise (· < ·))
    (hge : ∀ i ∈ indexes, next ≤ i.toNat) (hoffset : indexes ≠ [] → offset.toNat = next) :
    ∃ ds : List UInt16, differences next indexes = ds.map UInt16.toNat ∧
      Reads (addOffsets offset ds) [] indexes := by
  induction indexes generalizing offset next with
  | nil => exact ⟨[], rfl, Reads.pure []⟩
  | cons i indexes ih =>
    obtain ⟨hlt, hpair⟩ := List.pairwise_cons.mp hpair
    have hi : next ≤ i.toNat := hge i List.mem_cons_self
    have hnext : offset.toNat = next := hoffset (by simp)
    have hsize := i.toNat_lt
    -- the loop computes this difference, and finds this index again
    have hd : (i - offset).toNat = i.toNat - next := by
      rw [UInt16.toNat_sub_of_le _ _ (by rw [UInt16.le_iff_toNat_le]; omega), hnext]
    have hback : i - offset + offset = i := UInt16.sub_add_cancel _ _
    have hstep : indexes ≠ [] → (i + 1).toNat = i.toNat + 1 := by
      intro hne
      obtain ⟨j, hj⟩ := List.exists_mem_of_ne_nil _ hne
      have hij := UInt16.lt_iff_toNat_lt.mp (hlt j hj)
      have := j.toNat_lt
      rw [UInt16.toNat_add]
      simp only [UInt16.toNat_one]
      omega
    obtain ⟨ds, hds, hreads⟩ := ih (i + 1) (i.toNat + 1) hpair
      (fun j hj => UInt16.lt_iff_toNat_lt.mp (hlt j hj)) hstep
    refine ⟨(i - offset) :: ds, ?_, ?_⟩
    · rw [differences, List.map_cons, hd, ← hds]
      congr 1
      omega
    · have hfail : Reads (failIf (decide ((i - offset).toNat + offset.toNat > 0xffff))
          "indexes overflowed 16 bits") [] () :=
        reads_failIf (decide_eq_false (by omega))
      rw [← hback] at hreads
      refine (hfail.bind hreads.map).of_eq rfl ?_
      rw [hback]

/-- Increasing indexes are different numbers of 16 bits. -/
theorem length_le_of_increasing (h : indexes.Pairwise (· < ·)) : indexes.length ≤ MAX_SIZE := by
  have hnodup : (indexes.map UInt16.toNat).Nodup :=
    (List.pairwise_map.mpr (h.imp fun hij => (UInt16.lt_iff_toNat_lt.mp hij).ne))
  have hsub : indexes.map UInt16.toNat ⊆ List.range (2 ^ 16) := by
    intro n hn
    obtain ⟨i, -, rfl⟩ := List.mem_map.mp hn
    exact List.mem_range.mpr i.toNat_lt
  have := (hnodup.subperm hsub).length_le
  rw [List.length_map, List.length_range] at this
  exact this.trans (by decide)

theorem reads_serialize {r : BlockTransactionsRequest} (h : r.Increasing) :
    Reads unserialize r.serialize r := by
  obtain ⟨ds, hds, hreads⟩ := reads_differences 0 0 h
    (fun _ _ => Nat.zero_le _) fun _ => rfl
  have hlen : ds.length = r.indexes.length := by
    have hdiff : ∀ next l, (differences next l).length = l.length := by
      intro next l
      induction l generalizing next with
      | nil => rfl
      | cons i l ih => rw [differences, List.length_cons, ih, List.length_cons]
    rw [← hdiff ((0 : Nat) : Int) r.indexes, hds, List.length_map]
  have hvector : Reads (readVector readIndex) (serVector serDifference ds) ds :=
    reads_readVector _ (hlen ▸ length_le_of_increasing h) fun d _ => reads_readIndex d
  refine ((reads_readUint256 r.blockhash).bind (hvector.bind hreads.map)).of_eq ?_ rfl
  have hflat : (differences 0 r.indexes).flatMap compactSize = ds.flatMap serDifference := by
    rw [show (0 : Int) = ((0 : Nat) : Int) from rfl, hds, List.flatMap_map]
    rfl
  rw [serialize, serVector, hflat, hlen]
  simp

/-- A message that is accepted is a block hash and differences, and it gives increasing
indexes exactly when these do not reach 65535 before the last. Increasing requests come
back as they were sent. -/
theorem request_increasing_iff (input : List UInt8) :
    (∀ r rest, unserialize input = .ok (r, rest) →
      ∃ ds : List UInt16, input = r.blockhash.bytes ++ serVector serDifference ds ++ rest ∧
        (r.Increasing ↔ StaysBelow 0 ds)) ∧
    ∀ (r : BlockTransactionsRequest) (suffix : List UInt8), r.Increasing →
      unserialize (r.serialize ++ suffix) = .ok (r, suffix) := by
  refine ⟨fun r rest h => ?_, fun r suffix h => reads_serialize h suffix⟩
  obtain ⟨hash, mid, hhash, h⟩ := bind_eq_ok h
  obtain ⟨ds, mid', hds, h⟩ := bind_eq_ok h
  obtain ⟨indexes, mid'', hindexes, h⟩ := bind_eq_ok h
  obtain ⟨rfl, rfl⟩ := pure_eq_ok h
  obtain ⟨rfl, hiff⟩ := addOffsets_spec hindexes
  refine ⟨ds, ?_, ?_⟩
  · rw [takes_readUint256 _ _ _ hhash, takes_readVector takes_readIndex _ _ _ hds,
      List.append_assoc]
  · rw [Increasing, ← UInt16.toNat_zero, ← hiff]
    simp

/-- The request of the unit test. -/
def sampleRequest : BlockTransactionsRequest where
  blockhash := 7
  indexes := [0, 1, 3, 4]

theorem request_increasing_iff_sample :
    unserialize sampleRequest.serialize = .ok (sampleRequest, []) ∧
      ∃ ds : List UInt16, StaysBelow 0 ds ∧
        sampleRequest.serialize = sampleRequest.blockhash.bytes ++ serVector serDifference ds := by
  obtain ⟨haccepted, hsent⟩ := request_increasing_iff sampleRequest.serialize
  have hback := hsent sampleRequest [] (by decide)
  obtain ⟨ds, hds, hiff⟩ := haccepted _ _ hback
  exact ⟨hback, ds, hiff.mp (by decide), by rw [hds, List.append_nil]⟩

/-- Two differences, 65535 and 0: the second index is 0 again. -/
theorem wrapped_offset_accepted :
    unserialize (Uint256.bytes 7 ++ [2, 0xfd, 0xff, 0xff, 0]) =
        .ok ({ blockhash := 7, indexes := [0xffff, 0] }, []) ∧
      ¬ Increasing { blockhash := 7, indexes := [0xffff, 0] } := by
  decide +kernel

end BlockTransactionsRequest

end junkcoin
