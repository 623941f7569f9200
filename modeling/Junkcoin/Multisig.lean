-- `OP_CHECKMULTISIG` takes the signatures and the keys from the top of the
-- stack and gives each signature the first key left that it is valid for.
-- That decides whether the signatures can be given to keys in order.
import Junkcoin.Interpreter
import Junkcoin.Lib.OrderedMatch

namespace junkcoin

open OrderedMatch

/-- No flag tests the encoding of a signature or of a key. -/
structure EncodingFlagsOff (flags : VerifyFlags) : Prop where
  derSig : .DERSIG ∉ flags
  lowS : .LOW_S ∉ flags
  strictEnc : .STRICTENC ∉ flags
  witnessPubKeyType : .WITNESS_PUBKEYTYPE ∉ flags

section Multisig

variable {ctx : ScriptContext} {flags : VerifyFlags} {vchSig : Valtype}
  {keys rest sigs : List Valtype}

theorem EncodingFlagsOff.sig (h : EncodingFlagsOff flags) (vchSig : Valtype) :
    checkSignatureEncoding flags vchSig = .ok () := by
  simp [checkSignatureEncoding, h.derSig, h.lowS, h.strictEnc]

theorem EncodingFlagsOff.pubKey (h : EncodingFlagsOff flags) (sigversion : SigVersion)
    (vchPubKey : Valtype) : checkPubKeyEncoding flags sigversion vchPubKey = .ok () := by
  simp [checkPubKeyEncoding, h.strictEnc, h.witnessPubKeyType]

/-- The encodings of the signatures and the keys pass the tests of the flags. -/
structure Encoded (ctx : ScriptContext) (flags : VerifyFlags) (sigs keys : List Valtype) :
    Prop where
  sig : ∀ vchSig ∈ sigs, checkSignatureEncoding flags vchSig = .ok ()
  pubKey : ∀ vchPubKey ∈ keys, checkPubKeyEncoding flags ctx.sigversion vchPubKey = .ok ()

theorem EncodingFlagsOff.encoded (h : EncodingFlagsOff flags) (sigs keys : List Valtype) :
    Encoded ctx flags sigs keys :=
  ⟨fun vchSig _ => h.sig vchSig, fun vchPubKey _ => h.pubKey ctx.sigversion vchPubKey⟩

/-- The checker takes the signature for the key. -/
def ScriptContext.Valid (ctx : ScriptContext) (scriptCode : CScript) (vchSig vchPubKey : Valtype) :
    Prop :=
  ctx.checker.checkSig vchSig vchPubKey scriptCode ctx.sigversion = true

/-! ## The loop -/

/-- One round takes a key off; it leaves a matching of what is left exactly
when there was one before. -/
theorem matches_sigsLeft {scriptCode : CScript} {vchPubKey : Valtype} :
    Matches (ctx.Valid scriptCode) (vchSig :: sigs) (vchPubKey :: keys) ↔
      Matches (ctx.Valid scriptCode)
        (sigsLeft (ctx.checker.checkSig vchSig vchPubKey scriptCode ctx.sigversion) vchSig sigs)
        keys := by
  unfold sigsLeft
  split
  · rename_i hok
    exact matches_cons_of_fits hok
  · rename_i hok
    exact matches_cons_of_not_fits hok

theorem mem_sigsLeft {fOk : Bool} {v : Valtype} (h : v ∈ sigsLeft fOk vchSig sigs) :
    v ∈ vchSig :: sigs := by
  unfold sigsLeft at h
  split at h
  · exact List.mem_cons_of_mem _ h
  · exact h

/-- Where the encodings pass the loop ends with the answer. -/
theorem multisigLoop_decides (scriptCode : CScript) (sigs keys checked : List Valtype)
    (henc : Encoded ctx flags sigs keys) (hle : sigs.length ≤ keys.length) :
    ∃ fSuccess checked', multisigLoop ctx flags scriptCode sigs keys checked =
        .ok (fSuccess, checked') ∧
      (fSuccess = true ↔ Matches (ctx.Valid scriptCode) sigs keys) := by
  -- each round uses up a key
  induction keys generalizing sigs checked with
  | nil =>
    have hnil : sigs = [] := List.length_eq_zero_iff.mp (Nat.le_zero.mp hle)
    subst hnil
    exact ⟨true, checked, rfl, iff_of_true rfl matches_nil⟩
  | cons vchPubKey keys ih =>
    cases sigs with
    | nil => exact ⟨true, checked, rfl, iff_of_true rfl matches_nil⟩
    | cons vchSig sigs =>
      simp only [multisigLoop, henc.sig vchSig List.mem_cons_self,
        henc.pubKey vchPubKey List.mem_cons_self]
      rw [matches_sigsLeft]
      generalize hleft : sigsLeft _ vchSig sigs = left
      have henc' : Encoded ctx flags left keys :=
        ⟨fun v hv => henc.sig v (mem_sigsLeft (hleft ▸ hv)),
          fun v hv => henc.pubKey v (List.mem_cons_of_mem _ hv)⟩
      by_cases hfew : left.length > keys.length
      · refine ⟨false, vchSig :: checked, ?_, ?_⟩
        · exact if_pos hfew
        · refine iff_of_false (by simp) fun hmatch => ?_
          have := hmatch.length_le
          omega
      · obtain ⟨fSuccess, checked', hloop, hiff⟩ := ih left (vchSig :: checked) henc'
          (Nat.le_of_not_lt hfew)
        exact ⟨fSuccess, checked', (if_neg hfew).trans hloop, hiff⟩

/-! ## The opcode -/

/-- The stack behind `sig … sig m key … key n`. -/
def multisigArguments (sigs keys : List Valtype) : List Valtype :=
  scriptNumSerialize keys.length ::
    (keys.reverse ++ scriptNumSerialize sigs.length :: sigs.reverse)

/-- The numbers of keys and signatures are read back. -/
theorem stackNum_count (flags : VerifyFlags) {n : Nat} (h : n ≤ MAX_PUBKEYS_PER_MULTISIG) :
    stackNum flags (scriptNumSerialize n) nDefaultMaxNumSize = .ok (n : Int) := by
  have hall : ∀ b : Bool, ∀ k : Fin 21,
      scriptNum (scriptNumSerialize (k.val : Int)) b nDefaultMaxNumSize = some (k.val : Int) := by
    decide +kernel
  have hn := hall (decide (.MINIMALDATA ∈ flags)) ⟨n, Nat.lt_succ_of_le h⟩
  simp only [stackNum, hn]

theorem getint_count {n : Nat} (h : n ≤ MAX_PUBKEYS_PER_MULTISIG) : getint n = n := by
  unfold MAX_PUBKEYS_PER_MULTISIG at h
  unfold getint
  omega

/-- The arguments are taken from the stack; with `fNullFail` those behind the
first `ikey2` have to be empty. -/
theorem popArguments_append (fNullFail : Bool) (ikey2 : Nat) (arguments stack : List Valtype) :
    popArguments fNullFail arguments.length ikey2 (arguments ++ stack) =
      if fNullFail = true ∧ (arguments.drop ikey2).any (· ≠ []) = true then
        .error .SIG_NULLFAIL
      else .ok stack := by
  induction arguments generalizing ikey2 with
  | nil => simp [popArguments]
  | cons vch arguments ih =>
    rw [List.length_cons, List.cons_append, popArguments]
    cases ikey2 with
    | zero =>
      rw [ih]
      by_cases hvch : vch = []
      · simp [hvch]
      · by_cases hn : fNullFail = true
        · simp [hvch, hn]
        · simp [hn]
    | succ ikey2 =>
      rw [if_neg (by simp), ih]
      simp

@[simp] theorem multisigArguments_length (sigs keys : List Valtype) :
    (multisigArguments sigs keys).length = keys.length + sigs.length + 2 := by
  simp [multisigArguments]
  omega

/-- Behind the keys. -/
theorem multisigArguments_drop_keys (sigs keys stack : List Valtype) :
    (multisigArguments sigs keys ++ stack).drop (keys.length + 1) =
      scriptNumSerialize sigs.length :: (sigs.reverse ++ stack) := by
  simp [multisigArguments]

/-- The keys, from the top of the stack on. -/
theorem multisigArguments_keys (sigs keys stack : List Valtype) :
    ((multisigArguments sigs keys ++ stack).drop 1).take keys.length = keys.reverse := by
  simp [multisigArguments]

/-- The number of signatures. -/
theorem multisigArguments_count (sigs keys stack : List Valtype) :
    (multisigArguments sigs keys ++ stack).getD (keys.length + 1) [] =
      scriptNumSerialize sigs.length := by
  rw [List.getD_eq_getElem?_getD, ← List.head?_drop, multisigArguments_drop_keys]
  rfl

/-- The signatures and what comes behind them. -/
theorem multisigArguments_drop (sigs keys stack : List Valtype) :
    (multisigArguments sigs keys ++ stack).drop (keys.length + 2) = sigs.reverse ++ stack := by
  rw [show keys.length + 2 = keys.length + 1 + 1 from rfl, ← List.drop_drop,
    multisigArguments_drop_keys]
  rfl

theorem multisigCounts_of_stack {s : ScriptState} {dummy : Valtype}
    (hstack : s.stack = multisigArguments sigs keys ++ dummy :: rest)
    (hm : sigs.length ≤ keys.length) (hn : keys.length ≤ MAX_PUBKEYS_PER_MULTISIG)
    (hops : s.nOpCount + keys.length ≤ MAX_OPS_PER_SCRIPT) :
    multisigCounts flags s = .ok (keys.length, sigs.length) := by
  have hlen : s.stack.length = keys.length + sigs.length + 3 + rest.length := by
    rw [hstack, List.length_append, multisigArguments_length, List.length_cons]
    omega
  have hmn : sigs.length ≤ MAX_PUBKEYS_PER_MULTISIG := hm.trans hn
  have hcount := multisigArguments_count sigs keys (dummy :: rest)
  rw [← hstack] at hcount
  rw [multisigCounts]
  split
  · rename_i hnil
    rw [hnil, List.length_nil] at hlen
    omega
  · rename_i vchKeys tail hcons
    have hhead : vchKeys = scriptNumSerialize keys.length := by
      rw [hstack, multisigArguments] at hcons
      exact (List.cons.inj hcons).1.symm
    rw [hhead, stackNum_count flags hn]
    simp only [bind, Except.bind, getint_count hn, Int.toNat_natCast]
    rw [if_neg (by omega), if_neg (by omega), if_neg (by omega), hcount, stackNum_count flags hmn]
    simp only [getint_count hmn, Int.toNat_natCast]
    rw [if_neg (by omega), if_neg (by omega)]

/-- The opcode on a stack with its arguments leaves the answer, unless a
failed check or the extra argument is refused for an element that is not
empty. -/
theorem opCheckMultisig_of_stack {s : ScriptState} {dummy : Valtype}
    (henc : Encoded ctx flags sigs keys)
    (hstack : s.stack = multisigArguments sigs keys ++ dummy :: rest)
    (hm : sigs.length ≤ keys.length) (hn : keys.length ≤ MAX_PUBKEYS_PER_MULTISIG)
    (hops : s.nOpCount + keys.length ≤ MAX_OPS_PER_SCRIPT) (fVerify : Option ScriptError) :
    ∃ fSuccess checked,
      (fSuccess = true ↔
        Matches (ctx.Valid (scriptCodeFor ctx sigs.reverse s)) sigs keys) ∧
      opCheckMultisig ctx flags fVerify s =
        if fSuccess = false ∧ .NULLFAIL ∈ flags ∧ sigs.any (· ≠ []) = true then
          .error .SIG_NULLFAIL
        else if .NULLDUMMY ∈ flags ∧ dummy ≠ [] then .error .SIG_NULLDUMMY
        else pushBool fVerify fSuccess rest
          { s with stack := dummy :: rest, nOpCount := s.nOpCount + keys.length,
                   sigsChecked := checked } := by
  have henc' : Encoded ctx flags sigs.reverse keys.reverse :=
    ⟨fun v hv => henc.sig v (List.mem_reverse.mp hv),
      fun v hv => henc.pubKey v (List.mem_reverse.mp hv)⟩
  obtain ⟨fSuccess, checked, hloop, hiff⟩ := multisigLoop_decides
    (scriptCodeFor ctx sigs.reverse s) sigs.reverse keys.reverse s.sigsChecked henc'
    (by simpa using hm)
  refine ⟨fSuccess, checked, hiff.trans matches_reverse, ?_⟩
  have hpop := popArguments_append (!fSuccess && decide (.NULLFAIL ∈ flags)) (keys.length + 2)
    (multisigArguments sigs keys) (dummy :: rest)
  have hsigs := multisigArguments_drop sigs keys []
  rw [List.append_nil, List.append_nil] at hsigs
  rw [multisigArguments_length, hsigs, List.any_reverse] at hpop
  have htake : (sigs.reverse ++ dummy :: rest).take sigs.length = sigs.reverse := by
    rw [List.take_append_of_le_length (by simp), List.take_of_length_le (by simp)]
  unfold opCheckMultisig
  rw [multisigCounts_of_stack hstack hm hn hops, hstack]
  simp only [bind, Except.bind, multisigArguments_keys, multisigArguments_drop, htake]
  rw [hloop]
  simp only [hpop]
  by_cases hnull : fSuccess = false ∧ .NULLFAIL ∈ flags ∧ sigs.any (· ≠ []) = true
  · rw [if_pos hnull, if_pos (by simpa [and_assoc] using hnull)]
  · rw [if_neg hnull, if_neg (by simpa [and_assoc] using hnull)]
    rfl

end Multisig

/-- `OP_CHECKMULTISIG` decides ordered matching. The loop ends with true
exactly when the signatures can be given to keys in order, each to one that
it is valid for, and the opcode leaves that answer on the stack. -/
theorem checkMultisig_decides_ordered_match (ctx : ScriptContext) (flags : VerifyFlags)
    (henc : EncodingFlagsOff flags) (sigs keys : List Valtype) (hm : sigs.length ≤ keys.length)
    (hn : keys.length ≤ MAX_PUBKEYS_PER_MULTISIG) :
    (∀ scriptCode checked, ∃ fSuccess checked',
      multisigLoop ctx flags scriptCode sigs keys checked = .ok (fSuccess, checked') ∧
        (fSuccess = true ↔ ∃ f : Fin sigs.length → Fin keys.length, StrictMono f ∧
          ∀ i, ctx.checker.checkSig (sigs.get i) (keys.get (f i)) scriptCode ctx.sigversion =
            true)) ∧
    ∀ (s : ScriptState) (dummy : Valtype) (rest : List Valtype) (fVerify : Option ScriptError),
      s.stack = multisigArguments sigs keys ++ dummy :: rest →
      s.nOpCount + keys.length ≤ MAX_OPS_PER_SCRIPT →
      ∃ fSuccess checked,
        (fSuccess = true ↔ ∃ f : Fin sigs.length → Fin keys.length, StrictMono f ∧
          ∀ i, ctx.checker.checkSig (sigs.get i) (keys.get (f i))
            (scriptCodeFor ctx sigs.reverse s) ctx.sigversion = true) ∧
        opCheckMultisig ctx flags fVerify s =
          if fSuccess = false ∧ .NULLFAIL ∈ flags ∧ sigs.any (· ≠ []) = true then
            .error .SIG_NULLFAIL
          else if .NULLDUMMY ∈ flags ∧ dummy ≠ [] then .error .SIG_NULLDUMMY
          else pushBool fVerify fSuccess rest
            { s with stack := dummy :: rest, nOpCount := s.nOpCount + keys.length,
                     sigsChecked := checked } := by
  refine ⟨?_, ?_⟩
  · intro scriptCode checked
    exact multisigLoop_decides scriptCode sigs keys checked (henc.encoded sigs keys) hm
  · intro s dummy rest fVerify hstack hops
    exact opCheckMultisig_of_stack (henc.encoded sigs keys) hstack hm hn hops fVerify

/-- A checker that takes a signature for the key with the same bytes. -/
def sameBytesContext : ScriptContext where
  hashes := ⟨id, id, id, id, id⟩
  checker := ⟨fun vchSig vchPubKey _ _ => vchSig == vchPubKey, fun _ => true, fun _ => true⟩
  sigversion := .BASE

/-- Two signatures and three keys: the signatures of the first and the last
key, in the order of the keys. -/
theorem checkMultisig_two_of_three :
    EncodingFlagsOff ∅ ∧ ∃ fSuccess checked,
      multisigLoop sameBytesContext ∅ [] [[1], [3]] [[1], [2], [3]] [] = .ok (fSuccess, checked) ∧
        (fSuccess = true ↔ ∃ f : Fin 2 → Fin 3, StrictMono f ∧
          ∀ i, sameBytesContext.checker.checkSig ([[1], [3]].get i) ([[1], [2], [3]].get (f i)) []
            .BASE = true) := by
  have hoff : EncodingFlagsOff ∅ := ⟨by simp, by simp, by simp, by simp⟩
  exact ⟨hoff, (checkMultisig_decides_ordered_match sameBytesContext ∅ hoff [[1], [3]]
    [[1], [2], [3]] (by decide) (by decide)).1 [] []⟩

end junkcoin
