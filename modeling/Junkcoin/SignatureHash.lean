-- The hash that a signature signs (`SignatureHash` of
-- `script/interpreter.cpp`), which serializes the transaction with the parts
-- that are not signed left out in place, and the older one of
-- `test/sighash_tests.cpp`, which changes a copy of the transaction.
import Junkcoin.Interpreter

namespace junkcoin

variable {pc rest : CScript} {opcode : UInt8} {vch : Valtype}

def OP_CODESEPARATOR : UInt8 := 0xab

def SIGHASH_NONE : UInt32 := 2

def SIGHASH_SINGLE : UInt32 := 3

def SIGHASH_ANYONECANPAY : UInt32 := 0x80

/-- The bits of an `int nHashType`. -/
def hashSingle (nHashType : UInt32) : Bool := nHashType &&& 0x1f == SIGHASH_SINGLE

def hashNone (nHashType : UInt32) : Bool := nHashType &&& 0x1f == SIGHASH_NONE

def anyoneCanPay (nHashType : UInt32) : Bool := nHashType &&& SIGHASH_ANYONECANPAY != 0

/-! ## The script code -/

/-- Where a `GetOp` that fails leaves its iterator: the opcode is read, and
the size of a push where it is there. -/
def getOpStop : CScript → CScript
  | [] => []
  | opcode :: pc =>
    match pushSize opcode pc with
    | none => pc
    | some (_, pc) => pc

/-- The first loop of `SerializeScriptCode`. -/
def countSeparatorsFrom : (fuel : Nat) → (nCodeSeparators : Nat) → CScript → Nat
  | 0, nCodeSeparators, _ => nCodeSeparators
  | fuel + 1, nCodeSeparators, it =>
    match getOp it with
    | none => nCodeSeparators
    | some (opcode, _, it) =>
      countSeparatorsFrom fuel
        (if opcode = OP_CODESEPARATOR then nCodeSeparators + 1 else nCodeSeparators) it

/-- The second loop of `SerializeScriptCode`, and the write behind it. -/
def writeScriptFrom : (fuel : Nat) → (itBegin it : CScript) → List UInt8
  | 0, _, _ => []
  | fuel + 1, itBegin, it =>
    match getOp it with
    | none => if itBegin ≠ [] then itBegin.take (itBegin.length - (getOpStop it).length) else []
    | some (opcode, _, it) =>
      if opcode = OP_CODESEPARATOR then
        itBegin.take (itBegin.length - it.length - 1) ++ writeScriptFrom fuel it it
      else writeScriptFrom fuel itBegin it

/-- `SerializeScriptCode`: the script without its code separators. -/
def serializeScriptCode (scriptCode : CScript) : List UInt8 :=
  compactSize (scriptCode.length - countSeparatorsFrom (scriptCode.length + 1) 0 scriptCode) ++
    writeScriptFrom (scriptCode.length + 1) scriptCode scriptCode

/-! ## SignatureHash -/

/-- `CTransactionSignatureSerializer`. -/
structure CTransactionSignatureSerializer where
  txTo : CTransaction
  scriptCode : CScript
  nIn : Nat
  fAnyoneCanPay : Bool
  fHashSingle : Bool
  fHashNone : Bool

namespace CTransactionSignatureSerializer

def create (txTo : CTransaction) (scriptCode : CScript) (nIn : Nat) (nHashType : UInt32) :
    CTransactionSignatureSerializer :=
  ⟨txTo, scriptCode, nIn, anyoneCanPay nHashType, hashSingle nHashType, hashNone nHashType⟩

variable (ser : CTransactionSignatureSerializer)

/-- An input as it is serialized at the index `nInput`. -/
def inputBytes (nInput : Nat) (txin : CTxIn) : List UInt8 :=
  txin.prevout.serialize ++
    (if nInput ≠ ser.nIn then serBytes [] else serializeScriptCode ser.scriptCode) ++
    (if nInput ≠ ser.nIn ∧ (ser.fHashSingle ∨ ser.fHashNone) then Bytes.le 4 0
     else Bytes.le 4 txin.nSequence.toNat)

def serializeInput (nInput : Nat) : List UInt8 :=
  let nInput := if ser.fAnyoneCanPay then ser.nIn else nInput
  (ser.txTo.vin[nInput]?).elim [] (ser.inputBytes nInput)

def serializeOutput (nOutput : Nat) : List UInt8 :=
  if ser.fHashSingle ∧ nOutput ≠ ser.nIn then CTxOut.null.serialize
  else (ser.txTo.vout[nOutput]?).elim [] CTxOut.serialize

def serialize : List UInt8 :=
  let nInputs := if ser.fAnyoneCanPay then 1 else ser.txTo.vin.length
  let nOutputs :=
    if ser.fHashNone then 0 else if ser.fHashSingle then ser.nIn + 1 else ser.txTo.vout.length
  Bytes.le 4 ser.txTo.nVersion.toNat ++
    (compactSize nInputs ++ (List.range nInputs).flatMap ser.serializeInput) ++
    (compactSize nOutputs ++ (List.range nOutputs).flatMap ser.serializeOutput) ++
    Bytes.le 4 ser.txTo.nLockTime.toNat

end CTransactionSignatureSerializer

section Hash

variable (hash : List UInt8 → Uint256) (scriptCode : CScript) (txTo : CTransaction) (nIn : Nat)
  (nHashType : UInt32)

def getPrevoutHash : Uint256 :=
  hash (txTo.vin.flatMap fun txin => txin.prevout.serialize)

def getSequenceHash : Uint256 :=
  hash (txTo.vin.flatMap fun txin => Bytes.le 4 txin.nSequence.toNat)

def getOutputsHash : Uint256 := hash (txTo.vout.flatMap CTxOut.serialize)

/-- What is signed in a version 0 witness program. The hashes of the
`PrecomputedTransactionData` are these same ones; an input outside of the
transaction is undefined there. -/
def witnessMessage (amount : Int) : List UInt8 :=
  let hashPrevouts := if !anyoneCanPay nHashType then getPrevoutHash hash txTo else 0
  let hashSequence :=
    if !anyoneCanPay nHashType && !hashSingle nHashType && !hashNone nHashType then
      getSequenceHash hash txTo
    else 0
  let hashOutputs :=
    if !hashSingle nHashType && !hashNone nHashType then getOutputsHash hash txTo
    else if hashSingle nHashType && decide (nIn < txTo.vout.length) then
      hash ((txTo.vout[nIn]?).elim [] CTxOut.serialize)
    else 0
  Bytes.le 4 txTo.nVersion.toNat ++ hashPrevouts.bytes ++ hashSequence.bytes ++
    (txTo.vin[nIn]?).elim [] (fun txin => txin.prevout.serialize) ++ serBytes scriptCode ++
    Bytes.le 8 (amount % 2 ^ 64).toNat ++
    (txTo.vin[nIn]?).elim [] (fun txin => Bytes.le 4 txin.nSequence.toNat) ++ hashOutputs.bytes ++
    Bytes.le 4 txTo.nLockTime.toNat ++ Bytes.le 4 nHashType.toNat

/-- `SignatureHash`. -/
def signatureHash (amount : Int) (sigversion : SigVersion) : Uint256 :=
  if sigversion = .WITNESS_V0 then
    hash (witnessMessage hash scriptCode txTo nIn nHashType amount)
  else if nIn ≥ txTo.vin.length then 1
  else if hashSingle nHashType ∧ nIn ≥ txTo.vout.length then 1
  else
    hash ((CTransactionSignatureSerializer.create txTo scriptCode nIn nHashType).serialize ++
      Bytes.le 4 nHashType.toNat)

/-! ## SignatureHashOld -/

/-- `txTmp.vin[i].nSequence = 0` for the other inputs. -/
def freeSequences (vin : List CTxIn) : List CTxIn :=
  vin.mapIdx fun i txin => if i ≠ nIn then { txin with nSequence := 0 } else txin

/-- The inputs of `txTmp` before `SIGHASH_ANYONECANPAY` is looked at. -/
def oldInputs : List CTxIn :=
  let vin := (txTo.vin.map fun txin => { txin with scriptSig := [] }).modify nIn
    fun txin => { txin with scriptSig := findAndDelete scriptCode [OP_CODESEPARATOR] }
  if hashNone nHashType ∨ hashSingle nHashType then freeSequences nIn vin else vin

/-- The outputs of `txTmp`. -/
def oldOutputs : List CTxOut :=
  if hashNone nHashType then []
  else if hashSingle nHashType then
    (txTo.vout.take (nIn + 1)).mapIdx fun i out => if i < nIn then .null else out
  else txTo.vout

/-- `txTmp.vin[0] = txTmp.vin[nIn]; txTmp.vin.resize(1)`. -/
def onlyInput (vin : List CTxIn) : List CTxIn :=
  match vin[nIn]? with
  | none => vin
  | some txin => (vin.set 0 txin).take 1

/-- `SignatureHashOld`. -/
def signatureHashOld : Uint256 :=
  if nIn ≥ txTo.vin.length then 1
  else if hashSingle nHashType ∧ nIn ≥ txTo.vout.length then 1
  else
    let vin := oldInputs scriptCode txTo nIn nHashType
    let txTmp := { txTo with
      vin := if anyoneCanPay nHashType then onlyInput nIn vin else vin,
      vout := oldOutputs txTo nIn nHashType }
    hash (serializeTransaction false txTmp ++ Bytes.le 4 nHashType.toNat)

end Hash

/-! ## Scripts whose opcodes parse -/

/-- Every opcode of the script can be read. -/
inductive Parses : CScript → Prop
  | nil : Parses []
  | op {pc rest : CScript} {opcode : UInt8} {vch : Valtype}
      (read : getOp pc = some (opcode, vch, rest)) (parses : Parses rest) : Parses pc

/-- The script without its code separators. -/
def stripFrom : (fuel : Nat) → CScript → CScript
  | 0, pc => pc
  | fuel + 1, pc =>
    match getOp pc with
    | none => pc
    | some (opcode, _, rest) =>
      (if opcode = OP_CODESEPARATOR then [] else pc.take (pc.length - rest.length)) ++
        stripFrom fuel rest

def strip (script : CScript) : CScript := stripFrom script.length script

theorem stripFrom_mono {fuel fuel' : Nat} (h : pc.length ≤ fuel) (h' : pc.length ≤ fuel') :
    stripFrom fuel pc = stripFrom fuel' pc := by
  induction fuel generalizing fuel' pc with
  | zero =>
    obtain rfl : pc = [] := List.length_eq_zero_iff.mp (Nat.le_zero.mp h)
    cases fuel' <;> rfl
  | succ fuel ih =>
    cases fuel' with
    | zero =>
      obtain rfl : pc = [] := List.length_eq_zero_iff.mp (Nat.le_zero.mp h')
      rfl
    | succ fuel' =>
      rw [stripFrom, stripFrom]
      split
      · rfl
      · rename_i opcode vch rest hop
        have hlt := getOp_length hop
        exact congrArg _ (ih (by omega) (by omega))

theorem strip_of_getOp (h : getOp pc = some (opcode, vch, rest)) :
    strip pc = (if opcode = OP_CODESEPARATOR then [] else pc.take (pc.length - rest.length)) ++
      strip rest := by
  have hlt := getOp_length h
  rw [strip, stripFrom_mono (Nat.le_refl _) (Nat.le_succ _), stripFrom, h]
  exact congrArg _ (stripFrom_mono (by omega) (Nat.le_refl _))

theorem getOp_separator (pc : CScript) :
    getOp (OP_CODESEPARATOR :: pc) = some (OP_CODESEPARATOR, [], pc) := rfl

/-- Only the opcode itself is read as a code separator. -/
theorem getOp_eq_separator (h : getOp pc = some (OP_CODESEPARATOR, vch, rest)) :
    pc = OP_CODESEPARATOR :: rest := by
  cases pc with
  | nil => cases h
  | cons b pc =>
    rw [getOp] at h
    split at h
    · rename_i hb
      split at h
      · cases h
      · split at h
        · cases h
        · cases h
          exact absurd hb (by decide)
    · cases h
      rfl

theorem Parses.of_getOp (h : Parses pc) (hop : getOp pc = some (opcode, vch, rest)) :
    Parses rest := by
  cases h with
  | nil => cases hop
  | op read parses =>
    rw [read] at hop
    cases hop
    exact parses

theorem Parses.eq_nil (h : Parses pc) (hop : getOp pc = none) : pc = [] := by
  cases h with
  | nil => rfl
  | op read _ =>
    rw [read] at hop
    cases hop

/-- What is left behind an opcode is the end of the script. -/
theorem getOp_suffix (h : getOp pc = some (opcode, vch, rest)) : rest <:+ pc := by
  cases pc with
  | nil => cases h
  | cons b pc =>
    rw [getOp] at h
    split at h
    · split at h
      · cases h
      · rename_i nSize pc' hsize
        have hpc' : pc' <:+ pc := by
          unfold pushSize at hsize
          split at hsize
          · cases hsize
            exact List.suffix_refl _
          · split at hsize
            · cases hsize
            · cases hsize
              exact List.drop_suffix _ _
        split at h
        · cases h
        · cases h
          exact ((List.drop_suffix _ _).trans hpc').trans (List.suffix_cons _ _)
    · cases h
      exact List.suffix_cons _ _

/-- The bytes of an opcode, and the rest. -/
theorem getOp_split (h : getOp pc = some (opcode, vch, rest)) :
    pc.take (pc.length - rest.length) ++ rest = pc := by
  obtain ⟨chunk, hpc⟩ := getOp_suffix h
  rw [← hpc, List.length_append, Nat.add_sub_cancel, List.take_left]

theorem strip_sublist (h : Parses pc) : (strip pc).Sublist pc := by
  induction h with
  | nil => exact List.Sublist.refl _
  | @op pc rest opcode vch read _ ih =>
    rw [strip_of_getOp read]
    have hsplit := getOp_split read
    nth_rewrite 3 [← hsplit]
    refine List.Sublist.append ?_ ih
    split
    · exact List.nil_sublist _
    · exact List.Sublist.refl _

/-! ## FindAndDelete of the code separator -/

/-- The inner loop takes the separators at the front off. -/
theorem dropFound_separator (fuel n : Nat) (hlen : pc.length < fuel) :
    ∃ k pc2, dropFound [OP_CODESEPARATOR] fuel n pc = (n + k, pc2) ∧
      pc.length = k + pc2.length ∧ strip pc = strip pc2 ∧ (Parses pc → Parses pc2) ∧
      ∀ rest, pc2 ≠ OP_CODESEPARATOR :: rest := by
  induction fuel generalizing n pc with
  | zero => omega
  | succ fuel ih =>
    rw [dropFound]
    split
    · rename_i hfound
      obtain ⟨rest, rfl⟩ := List.isPrefixOf_iff_prefix.mp hfound
      rw [List.singleton_append, List.length_cons] at hlen
      obtain ⟨k, pc2, hdrop, hk, hstrip, hparses, hfront⟩ := ih (n + 1)
        (show rest.length < fuel by omega)
      refine ⟨k + 1, pc2, ?_, ?_, ?_, ?_, hfront⟩
      · rw [List.length_singleton, List.singleton_append, List.drop_succ_cons, List.drop_zero,
          hdrop]
        congr 1
        omega
      · rw [List.singleton_append, List.length_cons]
        omega
      · rw [List.singleton_append, strip_of_getOp (getOp_separator rest), if_pos rfl, hstrip]
        rfl
      · exact fun h => hparses (h.of_getOp (getOp_separator rest))
    · rename_i hfound
      refine ⟨0, pc, rfl, (Nat.zero_add _).symm, rfl, id, ?_⟩
      rintro rest rfl
      exact hfound (by simp)

theorem findAndDeleteFrom_separator (fuel n : Nat) (hlen : pc.length < fuel) (hparses : Parses pc) :
    ∃ k, findAndDeleteFrom [OP_CODESEPARATOR] fuel n pc = (n + k, strip pc) ∧
      pc.length = k + (strip pc).length := by
  induction fuel generalizing n pc with
  | zero => omega
  | succ fuel ih =>
    obtain ⟨k, pc2, hdrop, hk, hstrip, hparses2, hfront⟩ :=
      dropFound_separator (pc.length + 1) n (Nat.lt_succ_self _)
    rw [findAndDeleteFrom, hdrop, hstrip]
    dsimp only
    cases hop : getOp pc2 with
    | none =>
      obtain rfl := (hparses2 hparses).eq_nil hop
      exact ⟨k, rfl, hk⟩
    | some read =>
      obtain ⟨opcode, vch, rest⟩ := read
      have hlt := getOp_length hop
      obtain ⟨k', hrest, hk'⟩ := ih (n + k) (by omega) ((hparses2 hparses).of_getOp hop)
      have hne : opcode ≠ OP_CODESEPARATOR := by
        rintro rfl
        exact hfront rest (getOp_eq_separator hop)
      refine ⟨k + k', ?_, ?_⟩
      · dsimp only
        rw [hrest, strip_of_getOp hop, if_neg hne, Nat.add_assoc]
      · rw [strip_of_getOp hop, if_neg hne, List.length_append, List.length_take]
        omega

theorem findAndDelete_separator {script : CScript} (h : Parses script) :
    findAndDelete script [OP_CODESEPARATOR] = strip script := by
  obtain ⟨k, hfound, hk⟩ := findAndDeleteFrom_separator (script.length + 1) 0
    (Nat.lt_succ_self _) h
  rw [findAndDelete, if_neg (by simp), hfound]
  dsimp only
  split
  · rfl
  · exact ((strip_sublist h).eq_of_length (by omega)).symm

/-! ## SerializeScriptCode -/

theorem countSeparatorsFrom_add (fuel n : Nat) (hlen : pc.length < fuel) (hparses : Parses pc) :
    countSeparatorsFrom fuel n pc + (strip pc).length = n + pc.length := by
  induction fuel generalizing n pc with
  | zero => omega
  | succ fuel ih =>
    rw [countSeparatorsFrom]
    cases hop : getOp pc with
    | none =>
      obtain rfl := hparses.eq_nil hop
      rfl
    | some read =>
      obtain ⟨opcode, vch, rest⟩ := read
      have hlt := getOp_length hop
      have hrest := hparses.of_getOp hop
      dsimp only
      rw [strip_of_getOp hop]
      by_cases hsep : opcode = OP_CODESEPARATOR
      · subst hsep
        have hpc := congrArg List.length (getOp_eq_separator hop)
        rw [List.length_cons] at hpc
        rw [if_pos rfl, if_pos rfl, List.nil_append, ih (n + 1) (by omega) hrest]
        omega
      · rw [if_neg hsep, if_neg hsep, List.length_append, List.length_take]
        have := ih n (show rest.length < fuel by omega) hrest
        omega

/-- What was not written yet and what is left. -/
theorem writeScriptFrom_append (fuel : Nat) (mid : CScript) {it : CScript}
    (hlen : it.length < fuel) (hparses : Parses it) :
    writeScriptFrom fuel (mid ++ it) it = mid ++ strip it := by
  induction fuel generalizing mid it with
  | zero => omega
  | succ fuel ih =>
    rw [writeScriptFrom]
    cases hop : getOp it with
    | none =>
      obtain rfl := hparses.eq_nil hop
      simp [getOpStop, strip, stripFrom]
    | some read =>
      obtain ⟨opcode, vch, rest⟩ := read
      have hlt := getOp_length hop
      have hrest := hparses.of_getOp hop
      dsimp only
      rw [strip_of_getOp hop]
      by_cases hsep : opcode = OP_CODESEPARATOR
      · subst hsep
        have hpc := getOp_eq_separator hop
        have hwrite := ih [] (by omega) hrest
        rw [List.nil_append, List.nil_append] at hwrite
        rw [if_pos rfl, if_pos rfl, List.nil_append, hwrite, hpc, List.length_append,
          List.length_cons]
        congr 1
        rw [show mid.length + (rest.length + 1) - rest.length - 1 = mid.length by omega,
          List.take_left]
      · rw [if_neg hsep, if_neg hsep, ← List.append_assoc, ← ih _ (by omega) hrest,
          List.append_assoc, getOp_split hop]

/-- The script code is serialized as the script without its separators. -/
theorem serializeScriptCode_eq {scriptCode : CScript} (h : Parses scriptCode) :
    serializeScriptCode scriptCode =
      serBytes (findAndDelete scriptCode [OP_CODESEPARATOR]) := by
  have hcount := countSeparatorsFrom_add (scriptCode.length + 1) 0 (Nat.lt_succ_self _) h
  have hwrite := writeScriptFrom_append (scriptCode.length + 1) [] (Nat.lt_succ_self _) h
  rw [List.nil_append, List.nil_append] at hwrite
  rw [serializeScriptCode, hwrite, findAndDelete_separator h, serBytes]
  congr 2
  omega

/-! ## The two serializations -/

/-- A list element by element. -/
theorem flatMap_range {α : Type} (f : α → List UInt8) (l : List α) :
    (List.range l.length).flatMap (fun i => (l[i]?).elim [] f) = l.flatMap f := by
  induction l with
  | nil => rfl
  | cons a l ih =>
    rw [List.length_cons, List.range_succ_eq_map, List.flatMap_cons, List.flatMap_map,
      List.flatMap_cons, ← ih]
    rfl

section Inputs

variable (scriptCode : CScript) (txTo : CTransaction) (nIn : Nat) (nHashType : UInt32)

/-- The input `i` of `txTmp`. -/
def oldInput (i : Nat) (txin : CTxIn) : CTxIn :=
  { txin with
    scriptSig := if i ≠ nIn then [] else findAndDelete scriptCode [OP_CODESEPARATOR],
    nSequence :=
      if i ≠ nIn ∧ (hashSingle nHashType ∨ hashNone nHashType) then 0 else txin.nSequence }

theorem oldInputs_getElem? (i : Nat) :
    (oldInputs scriptCode txTo nIn nHashType)[i]? =
      (txTo.vin[i]?).map (oldInput scriptCode nIn nHashType i) := by
  unfold oldInputs freeSequences
  by_cases hfree : hashNone nHashType ∨ hashSingle nHashType
  · rw [if_pos hfree, List.getElem?_mapIdx, List.getElem?_modify, List.getElem?_map]
    cases txTo.vin[i]? with
    | none => rfl
    | some txin =>
      by_cases hi : nIn = i
      · simp [oldInput, hi]
      · simp [oldInput, hi, Ne.symm hi, hfree.symm]
  · rw [if_neg hfree, List.getElem?_modify, List.getElem?_map]
    have hfree' : ¬ (hashSingle nHashType ∨ hashNone nHashType) := fun h => hfree h.symm
    cases txTo.vin[i]? with
    | none => rfl
    | some txin =>
      by_cases hi : nIn = i
      · simp [oldInput, hi]
      · simp [oldInput, hi, Ne.symm hi, hfree']

theorem oldInputs_length : (oldInputs scriptCode txTo nIn nHashType).length = txTo.vin.length := by
  unfold oldInputs freeSequences
  split <;> simp

/-- An input is serialized as the one of `txTmp`. -/
theorem oldInput_serialize (h : Parses scriptCode) (i : Nat) (txin : CTxIn) :
    (oldInput scriptCode nIn nHashType i txin).serialize =
      (CTransactionSignatureSerializer.create txTo scriptCode nIn nHashType).inputBytes i txin := by
  simp only [CTransactionSignatureSerializer.inputBytes, oldInput, CTxIn.serialize,
    CTransactionSignatureSerializer.create, serializeScriptCode_eq h]
  congr 1
  · split <;> rfl
  · by_cases hfree : i ≠ nIn ∧ (hashSingle nHashType ∨ hashNone nHashType)
    · rw [if_pos hfree]
      exact (if_pos hfree).symm
    · rw [if_neg hfree]
      exact (if_neg hfree).symm

/-- The inputs of `txTmp` are serialized as the serializer does. -/
theorem serVector_oldInputs (h : Parses scriptCode) (hany : anyoneCanPay nHashType = false) :
    serVector CTxIn.serialize (oldInputs scriptCode txTo nIn nHashType) =
      compactSize txTo.vin.length ++ (List.range txTo.vin.length).flatMap
        (CTransactionSignatureSerializer.create txTo scriptCode nIn nHashType).serializeInput := by
  rw [serVector, oldInputs_length, ← flatMap_range, oldInputs_length]
  congr 2
  funext i
  rw [oldInputs_getElem?, CTransactionSignatureSerializer.serializeInput]
  simp only [CTransactionSignatureSerializer.create, hany, Bool.false_eq_true, if_false]
  cases txTo.vin[i]? with
  | none => rfl
  | some txin =>
    rw [Option.map_some, Option.elim_some, oldInput_serialize scriptCode txTo nIn nHashType h,
      CTransactionSignatureSerializer.create, hany]
    rfl

/-- With `SIGHASH_ANYONECANPAY` only the input that is signed is left. -/
theorem serVector_onlyInput (h : Parses scriptCode) (hany : anyoneCanPay nHashType = true)
    (hin : nIn < txTo.vin.length) :
    serVector CTxIn.serialize (onlyInput nIn (oldInputs scriptCode txTo nIn nHashType)) =
      compactSize 1 ++ (List.range 1).flatMap
        (CTransactionSignatureSerializer.create txTo scriptCode nIn nHashType).serializeInput := by
  have hget := oldInputs_getElem? scriptCode txTo nIn nHashType nIn
  rw [List.getElem?_eq_getElem hin, Option.map_some] at hget
  have honly : onlyInput nIn (oldInputs scriptCode txTo nIn nHashType) =
      [oldInput scriptCode nIn nHashType nIn txTo.vin[nIn]] := by
    rw [onlyInput, hget]
    cases hold : oldInputs scriptCode txTo nIn nHashType with
    | nil =>
      rw [hold] at hget
      cases hget
    | cons txin vin => rfl
  rw [honly, serVector, List.length_singleton, List.flatMap_singleton,
    oldInput_serialize scriptCode txTo nIn nHashType h]
  congr 1
  rw [show List.range 1 = [0] from rfl, List.flatMap_singleton,
    CTransactionSignatureSerializer.serializeInput]
  simp only [CTransactionSignatureSerializer.create, hany, if_true, List.getElem?_eq_getElem hin,
    Option.elim_some]

/-- The outputs of `txTmp` are serialized as the serializer does. -/
theorem serVector_oldOutputs (hout : hashSingle nHashType → nIn < txTo.vout.length)
    (nOutputs : Nat)
    (hn : nOutputs = if hashNone nHashType then 0
      else if hashSingle nHashType then nIn + 1 else txTo.vout.length) :
    serVector CTxOut.serialize (oldOutputs txTo nIn nHashType) =
      compactSize nOutputs ++ (List.range nOutputs).flatMap
        (CTransactionSignatureSerializer.create txTo scriptCode nIn nHashType).serializeOutput := by
  have hlen : (oldOutputs txTo nIn nHashType).length = nOutputs := by
    rw [oldOutputs, hn]
    split
    · rfl
    · split
      · rename_i hsingle
        have := hout hsingle
        rw [List.length_mapIdx, List.length_take]
        omega
      · rfl
  rw [serVector, ← flatMap_range, hlen]
  congr 1
  refine List.flatMap_congr ?_
  intro i hi
  rw [List.mem_range, hn] at hi
  simp only [CTransactionSignatureSerializer.serializeOutput,
    CTransactionSignatureSerializer.create, oldOutputs]
  by_cases hnone : hashNone nHashType
  · rw [if_pos hnone] at hi
    omega
  · rw [if_neg hnone] at hi ⊢
    by_cases hsingle : hashSingle nHashType
    · rw [if_pos hsingle] at hi ⊢
      have hnIn := hout hsingle
      rw [List.getElem?_mapIdx, List.getElem?_take_of_lt hi, List.getElem?_eq_getElem (by omega)]
      by_cases hlt : i < nIn
      · rw [Option.map_some, if_pos hlt]
        exact (if_pos ⟨hsingle, Nat.ne_of_lt hlt⟩).symm
      · rw [Option.map_some, if_neg hlt]
        exact (if_neg fun hc => hc.2 (by omega)).symm
    · rw [if_neg hsingle]
      exact (if_neg fun hc => hsingle hc.1).symm

end Inputs

/-- The optimised signature hash of a script before segwit is the older one,
for every transaction, index and hash type. -/
theorem signatureHash_eq_old (hash : List UInt8 → Uint256) (scriptCode : CScript)
    (txTo : CTransaction) (nIn : Nat) (nHashType : UInt32) (amount : Int)
    (h : Parses scriptCode) :
    signatureHash hash scriptCode txTo nIn nHashType amount .BASE =
      signatureHashOld hash scriptCode txTo nIn nHashType := by
  rw [signatureHash, signatureHashOld, if_neg (by decide)]
  split
  · rfl
  · rename_i hin
    split
    · rfl
    · rename_i hsingle
      have hout : hashSingle nHashType → nIn < txTo.vout.length :=
        fun hs => Nat.lt_of_not_le fun hle => hsingle ⟨hs, hle⟩
      have houts := serVector_oldOutputs scriptCode txTo nIn nHashType hout _ rfl
      have hins : serVector CTxIn.serialize (if anyoneCanPay nHashType then
            onlyInput nIn (oldInputs scriptCode txTo nIn nHashType)
          else oldInputs scriptCode txTo nIn nHashType) =
          compactSize (if anyoneCanPay nHashType then 1 else txTo.vin.length) ++
            (List.range (if anyoneCanPay nHashType then 1 else txTo.vin.length)).flatMap
              (CTransactionSignatureSerializer.create txTo scriptCode nIn
                nHashType).serializeInput := by
        cases hany : anyoneCanPay nHashType with
        | true => exact serVector_onlyInput scriptCode txTo nIn nHashType h hany (by omega)
        | false => exact serVector_oldInputs scriptCode txTo nIn nHashType h hany
      simp only [serializeTransaction, Bool.false_and, Bool.false_eq_true, if_false, houts, hins,
        List.append_nil]
      rfl

/-- A transaction with two inputs and one output. -/
def twoInputs : CTransaction where
  nVersion := 1
  vin := [{ prevout := ⟨5, 0⟩ }, { prevout := ⟨6, 1⟩ }]
  vout := [⟨7, [0x51]⟩]
  nLockTime := 0

/-- The second input with a script that has a code separator. -/
theorem signatureHash_eq_old_separator :
    Parses [0x51, 0xab, 0xac] ∧
      ∀ hash : List UInt8 → Uint256, signatureHash hash [0x51, 0xab, 0xac] twoInputs 1 1 0 .BASE =
        signatureHashOld hash [0x51, 0xab, 0xac] twoInputs 1 1 := by
  have hparses : Parses [0x51, 0xab, 0xac] := .op rfl (.op rfl (.op rfl .nil))
  exact ⟨hparses, fun hash => signatureHash_eq_old hash _ twoInputs 1 1 0 hparses⟩

end junkcoin
