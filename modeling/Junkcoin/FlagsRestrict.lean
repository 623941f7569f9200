-- Verification flags only restrict: a script that is accepted under more
-- flags is accepted under fewer. The one exception is a flag that gives an
-- upgradable NOP a meaning while such NOPs are discouraged.
import Junkcoin.SignatureEncoding
import Junkcoin.VerifyScript

namespace junkcoin

/-- Where upgradable NOPs are discouraged, the smaller set knows every NOP
that the larger one knows. -/
structure KnowsNops (F G : VerifyFlags) : Prop where
  lockTime : .DISCOURAGE_UPGRADABLE_NOPS ∈ F → .CHECKLOCKTIMEVERIFY ∈ G → .CHECKLOCKTIMEVERIFY ∈ F
  sequence : .DISCOURAGE_UPGRADABLE_NOPS ∈ F → .CHECKSEQUENCEVERIFY ∈ G → .CHECKSEQUENCEVERIFY ∈ F

/-- `WITNESS` needs `P2SH`, and `CLEANSTACK` needs both. -/
structure FlagsClosed (flags : VerifyFlags) : Prop where
  witness : .WITNESS ∈ flags → .P2SH ∈ flags
  cleanStack : .CLEANSTACK ∈ flags → .P2SH ∈ flags ∧ .WITNESS ∈ flags

section Opcodes

variable {ctx : ScriptContext} {F G : VerifyFlags} {s s' : ScriptState} (hsub : F ⊆ G)
  {fVerify : Option ScriptError} {stack : List Valtype}
include hsub

/-! ## Numbers -/

theorem stackNum_restrict {vch : Valtype} {nMaxNumSize : Nat} {n : Int}
    (h : stackNum G vch nMaxNumSize = .ok n) : stackNum F vch nMaxNumSize = .ok n := by
  unfold stackNum at h ⊢
  by_cases hF : .MINIMALDATA ∈ F
  · have hG := hsub hF
    simpa [hF, hG] using h
  · split at h
    · cases h
    · rename_i m hm
      cases h
      simp only [hF, decide_false]
      rw [scriptNum_of_minimal _ hm]

theorem opPick_restrict {fRoll : Bool} (h : opPick G fRoll s = .ok s') :
    opPick F fRoll s = .ok s' := by
  unfold opPick at h ⊢
  split at h
  · obtain ⟨n, hn, h⟩ := bind_ok h
    exact bind_ok_iff.mpr ⟨n, stackNum_restrict hsub hn, h⟩
  · cases h

theorem opNum_restrict {f : Int → Int} (h : opNum G f s = .ok s') : opNum F f s = .ok s' := by
  unfold opNum at h ⊢
  split at h
  · obtain ⟨bn, hbn, h⟩ := bind_ok h
    exact bind_ok_iff.mpr ⟨bn, stackNum_restrict hsub hbn, h⟩
  · cases h

theorem opNum2_restrict {f : Int → Int → Int} (h : opNum2 G f s = .ok s') :
    opNum2 F f s = .ok s' := by
  unfold opNum2 at h ⊢
  split at h
  · obtain ⟨bn1, hbn1, h⟩ := bind_ok h
    obtain ⟨bn2, hbn2, h⟩ := bind_ok h
    refine bind_ok_iff.mpr ⟨bn1, stackNum_restrict hsub hbn1, ?_⟩
    exact bind_ok_iff.mpr ⟨bn2, stackNum_restrict hsub hbn2, h⟩
  · cases h

theorem opWithin_restrict (h : opWithin G s = .ok s') : opWithin F s = .ok s' := by
  unfold opWithin at h ⊢
  split at h
  · obtain ⟨bn1, hbn1, h⟩ := bind_ok h
    obtain ⟨bn2, hbn2, h⟩ := bind_ok h
    obtain ⟨bn3, hbn3, h⟩ := bind_ok h
    refine bind_ok_iff.mpr ⟨bn1, stackNum_restrict hsub hbn1, ?_⟩
    refine bind_ok_iff.mpr ⟨bn2, stackNum_restrict hsub hbn2, ?_⟩
    exact bind_ok_iff.mpr ⟨bn3, stackNum_restrict hsub hbn3, h⟩
  · cases h

/-! ## NOPs and conditionals -/

theorem opNop_restrict (h : opNop G s = .ok s') : opNop F s = .ok s' := by
  unfold opNop at h ⊢
  split at h
  · cases h
  · rename_i hG
    rw [if_neg (fun hF => hG (hsub hF))]
    exact h

/-- A lock opcode leaves the stack as it is, so it may become a NOP that is
not discouraged. -/
theorem opCheckLock_restrict {flag : VerifyFlag} {check : Int → Bool}
    (hnop : .DISCOURAGE_UPGRADABLE_NOPS ∈ F → flag ∈ G → flag ∈ F)
    (h : opCheckLock G flag check s = .ok s') : opCheckLock F flag check s = .ok s' := by
  have hsame := opCheckLock_same h
  by_cases hflag : flag ∈ F
  · have hG := hsub hflag
    unfold opCheckLock at h ⊢
    rw [if_neg (by simpa using hG)] at h
    rw [if_neg (by simpa using hflag)]
    split at h
    · cases h
    · obtain ⟨n, hn, h⟩ := bind_ok h
      exact bind_ok_iff.mpr ⟨n, stackNum_restrict hsub hn, h⟩
  · have hnot : .DISCOURAGE_UPGRADABLE_NOPS ∉ F := by
      intro hdis
      by_cases hG : flag ∈ G
      · exact hflag (hnop hdis hG)
      · unfold opCheckLock at h
        rw [if_pos hG, if_pos (hsub hdis)] at h
        cases h
    unfold opCheckLock
    rw [if_pos hflag, if_neg hnot, hsame]

theorem opIf_restrict {fExec fNot : Bool} (h : opIf ctx G fExec fNot s = .ok s') :
    opIf ctx F fExec fNot s = .ok s' := by
  cases fExec with
  | false => exact h
  | true =>
    simp only [opIf, if_true] at h ⊢
    split at h
    · cases h
    · split at h
      · cases h
      · rename_i hbad
        rw [if_neg (fun hF => hbad ⟨hF.1, hsub hF.2.1, hF.2.2⟩)]
        exact h

/-! ## Signatures -/

theorem opCheckSig_restrict (h : opCheckSig ctx G fVerify s = .ok s') :
    opCheckSig ctx F fVerify s = .ok s' := by
  unfold opCheckSig at h ⊢
  split at h
  · dsimp only at h ⊢
    split at h
    · cases h
    · rename_i hbad
      rw [if_neg (fun hF => hbad ⟨hF.1, hsub hF.2.1, hF.2.2⟩)]
      exact h
  · cases h

theorem checkSignatureEncoding_restrict {vchSig : Valtype}
    (h : checkSignatureEncoding G vchSig = .ok ()) : checkSignatureEncoding F vchSig = .ok () := by
  unfold checkSignatureEncoding at h ⊢
  by_cases he : vchSig = []
  · rw [if_pos he]
  · rw [if_neg he] at h ⊢
    split at h
    · cases h
    · rename_i hder
      rw [if_neg (fun hF => hder ⟨hF.1.imp (hsub ·) (Or.imp (hsub ·) (hsub ·)), hF.2⟩)]
      split at h
      · rename_i hlow
        exact absurd h hlow.2
      · rename_i hlow
        rw [if_neg (fun hF => hlow ⟨hsub hF.1, hF.2⟩)]
        split at h
        · cases h
        · rename_i hhash
          rw [if_neg (fun hF => hhash ⟨hsub hF.1, hF.2⟩)]

theorem checkPubKeyEncoding_restrict {sigversion : SigVersion} {vchPubKey : Valtype}
    (h : checkPubKeyEncoding G sigversion vchPubKey = .ok ()) :
    checkPubKeyEncoding F sigversion vchPubKey = .ok () := by
  unfold checkPubKeyEncoding at h ⊢
  split at h
  · cases h
  · rename_i hstrict
    rw [if_neg (fun hF => hstrict ⟨hsub hF.1, hF.2⟩)]
    split at h
    · cases h
    · rename_i hwitness
      rw [if_neg (fun hF => hwitness ⟨hsub hF.1, hF.2⟩)]

theorem multisigLoop_restrict {scriptCode : CScript} {sigs keys checked : List Valtype}
    {result : Bool × List Valtype}
    (h : multisigLoop ctx G scriptCode sigs keys checked = .ok result) :
    multisigLoop ctx F scriptCode sigs keys checked = .ok result := by
  induction keys generalizing sigs checked with
  | nil =>
    cases sigs with
    | nil => exact h
    | cons vchSig sigs => exact h
  | cons vchPubKey keys ih =>
    cases sigs with
    | nil => exact h
    | cons vchSig sigs =>
      simp only [multisigLoop] at h ⊢
      obtain ⟨_, hsig, h⟩ := bind_ok h
      obtain ⟨_, hkey, h⟩ := bind_ok h
      refine bind_ok_iff.mpr ⟨(), checkSignatureEncoding_restrict hsub hsig, ?_⟩
      refine bind_ok_iff.mpr ⟨(), checkPubKeyEncoding_restrict hsub hkey, ?_⟩
      split at h
      · rename_i hfew
        rw [if_pos hfew]
        exact h
      · rename_i hfew
        rw [if_neg hfew]
        exact ih h

theorem multisigCounts_restrict {counts : Nat × Nat} (h : multisigCounts G s = .ok counts) :
    multisigCounts F s = .ok counts := by
  unfold multisigCounts at h ⊢
  split at h
  · cases h
  · obtain ⟨nKeys, hkeys, h⟩ := bind_ok h
    refine bind_ok_iff.mpr ⟨nKeys, stackNum_restrict hsub hkeys, ?_⟩
    dsimp only at h ⊢
    split at h
    · cases h
    · rename_i h1
      rw [if_neg h1]
      split at h
      · cases h
      · rename_i h2
        rw [if_neg h2]
        split at h
        · cases h
        · rename_i h3
          rw [if_neg h3]
          obtain ⟨nSigs, hsigs, h⟩ := bind_ok h
          exact bind_ok_iff.mpr ⟨nSigs, stackNum_restrict hsub hsigs, h⟩

omit hsub in
theorem popArguments_restrict {fF fG : Bool} (himp : fF = true → fG = true) {i ikey2 : Nat}
    {stack' : List Valtype} (h : popArguments fG i ikey2 stack = .ok stack') :
    popArguments fF i ikey2 stack = .ok stack' := by
  induction i generalizing ikey2 stack with
  | zero => exact h
  | succ i ih =>
    cases stack with
    | nil => exact h
    | cons vch stack =>
      simp only [popArguments] at h ⊢
      split at h
      · cases h
      · rename_i hbad
        rw [if_neg (fun hF => hbad ⟨himp hF.1, hF.2⟩)]
        exact ih h

theorem multisigResult_restrict {fSuccess : Bool}
    (h : multisigResult G fVerify fSuccess s = .ok s') :
    multisigResult F fVerify fSuccess s = .ok s' := by
  unfold multisigResult at h ⊢
  split at h
  · cases h
  · split at h
    · cases h
    · rename_i hbad
      rw [if_neg (fun hF => hbad ⟨hsub hF.1, hF.2⟩)]
      exact h

theorem opCheckMultisig_restrict (h : opCheckMultisig ctx G fVerify s = .ok s') :
    opCheckMultisig ctx F fVerify s = .ok s' := by
  obtain ⟨counts, hcounts, h⟩ := bind_ok h
  obtain ⟨result, hloop, h⟩ := bind_ok h
  obtain ⟨stack, hpop, h⟩ := bind_ok h
  refine bind_ok_iff.mpr ⟨counts, multisigCounts_restrict hsub hcounts, ?_⟩
  refine bind_ok_iff.mpr ⟨result, multisigLoop_restrict hsub hloop, ?_⟩
  refine bind_ok_iff.mpr ⟨stack, popArguments_restrict ?_ hpop, multisigResult_restrict hsub h⟩
  intro hF
  simp only [Bool.and_eq_true, decide_eq_true_eq] at hF ⊢
  exact ⟨hF.1, hsub hF.2⟩

/-! ## The loop -/

theorem execOp_restrict (hnops : KnowsNops F G) {fExec : Bool} {op : Opcodetype}
    (h : execOp ctx G fExec s op = .ok s') : execOp ctx F fExec s op = .ok s' := by
  cases op with
  | OP_CHECKLOCKTIMEVERIFY => exact opCheckLock_restrict hsub hnops.lockTime h
  | OP_CHECKSEQUENCEVERIFY => exact opCheckLock_restrict hsub hnops.sequence h
  | OP_NOP1 | OP_NOP4 | OP_NOP5 | OP_NOP6 | OP_NOP7 | OP_NOP8 | OP_NOP9 | OP_NOP10 =>
    exact opNop_restrict hsub h
  | OP_IF | OP_NOTIF => exact opIf_restrict hsub h
  | OP_PICK | OP_ROLL => exact opPick_restrict hsub h
  | OP_1ADD | OP_1SUB | OP_NEGATE | OP_ABS | OP_NOT | OP_0NOTEQUAL => exact opNum_restrict hsub h
  | OP_ADD | OP_SUB | OP_BOOLAND | OP_BOOLOR | OP_NUMEQUAL | OP_NUMNOTEQUAL | OP_LESSTHAN
  | OP_GREATERTHAN | OP_LESSTHANOREQUAL | OP_GREATERTHANOREQUAL | OP_MIN | OP_MAX =>
    exact opNum2_restrict hsub h
  | OP_NUMEQUALVERIFY =>
    obtain ⟨t, ht, h⟩ := bind_ok h
    exact bind_ok_iff.mpr ⟨t, opNum2_restrict hsub ht, h⟩
  | OP_WITHIN => exact opWithin_restrict hsub h
  | OP_CHECKSIG | OP_CHECKSIGVERIFY => exact opCheckSig_restrict hsub h
  | OP_CHECKMULTISIG | OP_CHECKMULTISIGVERIFY => exact opCheckMultisig_restrict hsub h
  | _ => exact h

theorem dispatchOp_restrict (hnops : KnowsNops F G) {opcode : UInt8} {vchPushValue : Valtype}
    (h : dispatchOp ctx G opcode vchPushValue s = .ok s') :
    dispatchOp ctx F opcode vchPushValue s = .ok s' := by
  unfold dispatchOp at h ⊢
  split at h
  · rename_i hpush
    rw [if_pos hpush]
    split at h
    · cases h
    · rename_i hmin
      rw [if_neg (fun hF => hmin ⟨hsub hF.1, hF.2⟩)]
      exact h
  · rename_i hpush
    rw [if_neg hpush]
    split at h
    · rename_i hexec
      rw [if_pos hexec]
      exact execOp_restrict hsub hnops h
    · rename_i hexec
      rw [if_neg hexec]
      exact h

theorem evalStep_restrict (hnops : KnowsNops F G) (h : evalStep ctx G s = .ok s') :
    evalStep ctx F s = .ok s' := by
  obtain ⟨fetched, hfetch, h⟩ := bind_ok h
  obtain ⟨t, ht, h⟩ := bind_ok h
  refine bind_ok_iff.mpr ⟨fetched, hfetch, ?_⟩
  exact bind_ok_iff.mpr ⟨t, dispatchOp_restrict hsub hnops ht, h⟩

/-- `EvalScript` ends in the same state under fewer flags. -/
theorem evalScript_restrict (hnops : KnowsNops F G) {script : CScript}
    (h : evalScript ctx G stack script = .ok s) : evalScript ctx F stack script = .ok s := by
  unfold evalScript at h ⊢
  split at h
  · cases h
  · rename_i hsize
    rw [if_neg hsize]
    obtain ⟨t, ht, h⟩ := bind_ok h
    refine bind_ok_iff.mpr ⟨t, ?_, h⟩
    exact Loop.run_mono (fun _ _ hstep => evalStep_restrict hsub hnops hstep) ht

end Opcodes

/-! ## VerifyScript -/

section Verify

variable {verifier : ScriptVerifier} {F G : VerifyFlags} {script scriptSig scriptPubKey : CScript}
  {witness : List Valtype} {t st st' : VerifyState}

theorem evalOn_restrict (hsub : F ⊆ G) (hnops : KnowsNops F G) {sigversion : SigVersion}
    {stack stack' : List Valtype} (h : evalOn verifier G sigversion stack script = .ok stack') :
    evalOn verifier F sigversion stack script = .ok stack' := by
  unfold evalOn at h ⊢
  split at h
  · cases h
  · rename_i s hs
    rw [evalScript_restrict hsub hnops hs]
    exact h

theorem verifyWitnessProgram_restrict (hsub : F ⊆ G) (hnops : KnowsNops F G) {witversion : Nat}
    {program : Valtype} (h : verifyWitnessProgram verifier G witness witversion program = .ok ()) :
    verifyWitnessProgram verifier F witness witversion program = .ok () := by
  unfold verifyWitnessProgram at h ⊢
  split at h
  · rename_i hv0
    rw [if_pos hv0]
    obtain ⟨p, hp, h⟩ := bind_ok h
    obtain ⟨_, hsize, h⟩ := bind_ok h
    obtain ⟨stack, hstack, h⟩ := bind_ok h
    refine bind_ok_iff.mpr ⟨p, hp, ?_⟩
    refine bind_ok_iff.mpr ⟨_, hsize, ?_⟩
    exact bind_ok_iff.mpr ⟨stack, evalOn_restrict hsub hnops hstack, h⟩
  · rename_i hv0
    rw [if_neg hv0]
    rw [failIf_ok, decide_eq_false_iff_not] at h ⊢
    exact fun hF => h (hsub hF)

/-- Under fewer flags the witness step passes too. With `WITNESS` in both
sets it leaves the same state. -/
theorem verifyWitness_restrict (hsub : F ⊆ G) (hnops : KnowsNops F G) {exact : Bool}
    {malleated : ScriptError}
    (h : verifyWitness verifier G exact malleated script witness st = .ok st') :
    ∃ t, verifyWitness verifier F exact malleated script witness st = .ok t ∧
      (.WITNESS ∈ F → t = st') := by
  by_cases hF : .WITNESS ∈ F
  · refine ⟨st', ?_, fun _ => rfl⟩
    unfold verifyWitness at h ⊢
    rw [if_pos (hsub hF)] at h
    rw [if_pos hF]
    split at h
    · exact h
    · obtain ⟨_, hexact, h⟩ := bind_ok h
      obtain ⟨_, hprogram, h⟩ := bind_ok h
      refine bind_ok_iff.mpr ⟨_, hexact, ?_⟩
      exact bind_ok_iff.mpr ⟨_, verifyWitnessProgram_restrict hsub hnops hprogram, h⟩
  · exact ⟨st, by rw [verifyWitness, if_neg hF], fun hw => absurd hw hF⟩

theorem verifyP2sh_restrict (hsub : F ⊆ G) (hclosed : FlagsClosed F) (hnops : KnowsNops F G)
    {stackCopy : List Valtype} (hst : .WITNESS ∈ F → t = st)
    (h : verifyP2sh verifier G scriptSig scriptPubKey witness stackCopy st = .ok st') :
    ∃ t', verifyP2sh verifier F scriptSig scriptPubKey witness stackCopy t = .ok t' ∧
      (.WITNESS ∈ F → t' = st') := by
  by_cases hF : .P2SH ∈ F ∧ isPayToScriptHash scriptPubKey
  · -- both sets evaluate the script behind the hash
    unfold verifyP2sh at h ⊢
    rw [if_pos ⟨hsub hF.1, hF.2⟩] at h
    rw [if_pos hF]
    obtain ⟨_, hpush, h⟩ := bind_ok h
    obtain ⟨_, hassert, h⟩ := bind_ok h
    obtain ⟨stack, hstack, h⟩ := bind_ok h
    obtain ⟨_, htrue, h⟩ := bind_ok h
    by_cases hw : .WITNESS ∈ F
    · obtain ⟨t', ht', heq⟩ := verifyWitness_restrict hsub hnops h
      refine ⟨t', ?_, heq⟩
      refine bind_ok_iff.mpr ⟨_, hpush, ?_⟩
      refine bind_ok_iff.mpr ⟨_, hassert, ?_⟩
      refine bind_ok_iff.mpr ⟨stack, evalOn_restrict hsub hnops hstack, ?_⟩
      refine bind_ok_iff.mpr ⟨_, htrue, ?_⟩
      rw [hst hw]
      exact ht'
    · refine ⟨⟨t.hadWitness, stack⟩, ?_, fun hw' => absurd hw' hw⟩
      refine bind_ok_iff.mpr ⟨_, hpush, ?_⟩
      refine bind_ok_iff.mpr ⟨_, hassert, ?_⟩
      refine bind_ok_iff.mpr ⟨stack, evalOn_restrict hsub hnops hstack, ?_⟩
      refine bind_ok_iff.mpr ⟨_, htrue, ?_⟩
      rw [verifyWitness, if_neg hw]
  · refine ⟨t, by rw [verifyP2sh, if_neg hF], ?_⟩
    intro hw
    have hp2sh := hclosed.witness hw
    have hnot : ¬ isPayToScriptHash scriptPubKey = true := fun hp => hF ⟨hp2sh, hp⟩
    unfold verifyP2sh at h
    rw [if_neg (fun hG => hnot hG.2)] at h
    cases h
    exact hst hw

theorem checkCleanStack_restrict (hsub : F ⊆ G) (hclosed : FlagsClosed F)
    (hst : .WITNESS ∈ F → t = st) (h : checkCleanStack G st = .ok ()) :
    checkCleanStack F t = .ok () := by
  unfold checkCleanStack at h ⊢
  by_cases hF : .CLEANSTACK ∈ F
  · obtain ⟨hp2sh, hwitness⟩ := hclosed.cleanStack hF
    rw [if_pos (hsub hF)] at h
    rw [if_pos hF, hst hwitness]
    obtain ⟨_, _, h⟩ := bind_ok h
    obtain ⟨_, _, h⟩ := bind_ok h
    refine bind_ok_iff.mpr ⟨(), by simpa using hp2sh, ?_⟩
    exact bind_ok_iff.mpr ⟨(), by simpa using hwitness, h⟩
  · rw [if_neg hF]

theorem checkUnexpectedWitness_restrict (hsub : F ⊆ G) (hclosed : FlagsClosed F)
    (hst : .WITNESS ∈ F → t = st) (h : checkUnexpectedWitness G witness st = .ok ()) :
    checkUnexpectedWitness F witness t = .ok () := by
  unfold checkUnexpectedWitness at h ⊢
  by_cases hF : .WITNESS ∈ F
  · rw [if_pos (hsub hF)] at h
    rw [if_pos hF, hst hF]
    obtain ⟨_, _, h⟩ := bind_ok h
    exact bind_ok_iff.mpr ⟨(), by simpa using hclosed.witness hF, h⟩
  · rw [if_neg hF]

theorem verifyScript_restrict (hsub : F ⊆ G) (hclosed : FlagsClosed F) (hnops : KnowsNops F G)
    (h : verifyScript verifier G scriptSig scriptPubKey witness = .ok ()) :
    verifyScript verifier F scriptSig scriptPubKey witness = .ok () := by
  obtain ⟨_, hpush, h⟩ := bind_ok h
  obtain ⟨stackCopy, hsig, h⟩ := bind_ok h
  obtain ⟨stack, hkey, h⟩ := bind_ok h
  obtain ⟨_, htrue, h⟩ := bind_ok h
  obtain ⟨st1, hbare, h⟩ := bind_ok h
  obtain ⟨st2, hp2sh, h⟩ := bind_ok h
  obtain ⟨_, hclean, h⟩ := bind_ok h
  obtain ⟨t1, hbareF, hst1⟩ := verifyWitness_restrict hsub hnops hbare
  obtain ⟨t2, hp2shF, hst2⟩ := verifyP2sh_restrict hsub hclosed hnops hst1 hp2sh
  have hpushF : failIf (.SIGPUSHONLY ∈ F && !isPushOnly scriptSig) .SIG_PUSHONLY = .ok () := by
    rw [failIf_ok, Bool.and_eq_false_iff, decide_eq_false_iff_not] at hpush ⊢
    exact hpush.imp_left fun hG hF => hG (hsub hF)
  refine bind_ok_iff.mpr ⟨(), hpushF, ?_⟩
  refine bind_ok_iff.mpr ⟨stackCopy, evalOn_restrict hsub hnops hsig, ?_⟩
  refine bind_ok_iff.mpr ⟨stack, evalOn_restrict hsub hnops hkey, ?_⟩
  refine bind_ok_iff.mpr ⟨_, htrue, ?_⟩
  refine bind_ok_iff.mpr ⟨t1, hbareF, ?_⟩
  refine bind_ok_iff.mpr ⟨t2, hp2shF, ?_⟩
  refine bind_ok_iff.mpr ⟨(), checkCleanStack_restrict hsub hclosed hst2 hclean, ?_⟩
  exact checkUnexpectedWitness_restrict hsub hclosed hst2 h

end Verify

/-! ## The memory pool -/

namespace MempoolEnv

variable {env : MempoolEnv} {tx : CTransaction} {inputs : CCoinsViewCache} {F G : VerifyFlags}

theorem checkScript_restrict (hsub : F ⊆ G) (hclosed : FlagsClosed F) (hnops : KnowsNops F G)
    {i : Nat} {txin : CTxIn} (h : env.checkScript tx inputs G i txin = .ok ()) :
    env.checkScript tx inputs F i txin = .ok () := by
  unfold checkScript at h ⊢
  split at h
  · rename_i hok
    have hF : env.scriptCheck tx inputs F i txin = .ok () :=
      verifyScript_restrict hsub hclosed hnops hok
    rw [hF]
  · cases h
  · split at h
    · cases h
    · cases h

theorem checkScriptsFrom_restrict (hsub : F ⊆ G) (hclosed : FlagsClosed F)
    (hnops : KnowsNops F G) {i : Nat} {vin : List CTxIn}
    (h : env.checkScriptsFrom tx inputs G i vin = .ok ()) :
    env.checkScriptsFrom tx inputs F i vin = .ok () := by
  induction vin generalizing i with
  | nil => rfl
  | cons txin vin ih =>
    obtain ⟨_, hscript, h⟩ := bind_ok h
    exact bind_ok_iff.mpr ⟨(), checkScript_restrict hsub hclosed hnops hscript, ih h⟩

theorem checkInputs_restrict (hsub : F ⊆ G) (hclosed : FlagsClosed F) (hnops : KnowsNops F G)
    (h : env.checkInputs tx inputs G = .ok ()) : env.checkInputs tx inputs F = .ok () := by
  unfold checkInputs at h ⊢
  split at h
  · rename_i hcoinbase
    rw [if_pos hcoinbase]
  · rename_i hcoinbase
    rw [if_neg hcoinbase]
    obtain ⟨_, hinputs, h⟩ := bind_ok h
    exact bind_ok_iff.mpr ⟨_, hinputs, checkScriptsFrom_restrict hsub hclosed hnops h⟩

/-- The mandatory flags are closed and discourage nothing. -/
theorem mandatory_closed : FlagsClosed MANDATORY_SCRIPT_VERIFY_FLAGS :=
  ⟨by decide, by decide⟩

theorem mandatory_knowsNops (G : VerifyFlags) : KnowsNops MANDATORY_SCRIPT_VERIFY_FLAGS G := by
  have hnot : .DISCOURAGE_UPGRADABLE_NOPS ∉ MANDATORY_SCRIPT_VERIFY_FLAGS := by decide
  exact ⟨fun hF => absurd hF hnot, fun hF => absurd hF hnot⟩

theorem acceptScripts_no_bug (hsub : MANDATORY_SCRIPT_VERIFY_FLAGS ⊆ G) (failure : Failure) :
    env.acceptScripts tx inputs G ≠ .bug failure := by
  intro h
  unfold acceptScripts at h
  split at h
  · split at h
    · cases h
    · cases h
  · rename_i hok
    rw [checkInputs_restrict hsub mandatory_closed (mandatory_knowsNops G) hok] at h
    cases h

end MempoolEnv

/-! ## The laws -/

/-- A script that is accepted under a set of flags is accepted under every
closed smaller set that knows the same upgradable NOPs where it discourages
them. So a transaction that passes flags with the mandatory ones among them
passes the mandatory flags, and the memory pool reports no bug. The flags of
a chain that requires standard transactions are such flags. -/
theorem flags_only_restrict :
    (∀ (verifier : ScriptVerifier) (F G : VerifyFlags) (scriptSig scriptPubKey : CScript)
        (witness : List Valtype), F ⊆ G → FlagsClosed F → FlagsClosed G → KnowsNops F G →
      verifyScript verifier G scriptSig scriptPubKey witness = .ok () →
      verifyScript verifier F scriptSig scriptPubKey witness = .ok ()) ∧
    (∀ (env : MempoolEnv) (tx : CTransaction) (inputs : CCoinsViewCache) (flags : VerifyFlags)
        (failure : Failure), MANDATORY_SCRIPT_VERIFY_FLAGS ⊆ flags →
      env.acceptScripts tx inputs flags ≠ .bug failure) ∧
    (∀ promiscuousmempoolflags : Option VerifyFlags, MANDATORY_SCRIPT_VERIFY_FLAGS ⊆
      MempoolEnv.scriptVerifyFlags true promiscuousmempoolflags) := by
  refine ⟨?_, ?_, ?_⟩
  · intro verifier F G scriptSig scriptPubKey witness hsub hF _ hnops h
    exact verifyScript_restrict hsub hF hnops h
  · intro env tx inputs flags failure hsub
    exact MempoolEnv.acceptScripts_no_bug hsub failure
  · intro promiscuousmempoolflags
    rw [MempoolEnv.scriptVerifyFlags, if_pos rfl]
    decide

/-- A verifier whose checker accepts everything. -/
def lenientVerifier : ScriptVerifier := ⟨lenientContext.hashes, lenientContext.checker⟩

/-- A lock time, and then one signature of one key. -/
def lockedScript : CScript :=
  [0x51, 0xb1, 0x75, 0x51, 0x21, 0x02] ++ List.replicate 32 0 ++ [0x51, 0xae]

/-- A script hash that stands for the locked script, and a strict signature.
It passes the standard flags, which look at the lock time, the encodings and
the stack, so it passes the mandatory ones. -/
theorem script_hash_passes_mandatory :
    let verifier := { lenientVerifier with
      hashes := { lenientContext.hashes with hash160 := fun _ => List.replicate 20 0 } }
    verifyScript verifier MANDATORY_SCRIPT_VERIFY_FLAGS
      ([0x00, 0x09] ++ strictSig ++ [0x28] ++ lockedScript)
      ([0xa9, 0x14] ++ List.replicate 20 0 ++ [0x87]) [] = .ok () := by
  intro verifier
  apply flags_only_restrict.1 verifier MANDATORY_SCRIPT_VERIFY_FLAGS
    STANDARD_SCRIPT_VERIFY_FLAGS _ _ [] (by decide) MempoolEnv.mandatory_closed
    ⟨by decide, by decide⟩ (MempoolEnv.mandatory_knowsNops _)
  decide +kernel

/-- NOPs are discouraged. -/
def discouraged : VerifyFlags := {.DISCOURAGE_UPGRADABLE_NOPS}

/-- NOPs are discouraged, and one of them is `OP_CHECKLOCKTIMEVERIFY`. -/
def discouragedWithLockTime : VerifyFlags := {.DISCOURAGE_UPGRADABLE_NOPS, .CHECKLOCKTIMEVERIFY}

/-- `OP_1 OP_CHECKLOCKTIMEVERIFY` passes with the lock time flag and fails
without it, as a discouraged NOP. -/
theorem discouraged_nop_passes_with_more_flags :
    discouraged ⊆ discouragedWithLockTime ∧ FlagsClosed discouraged ∧
      FlagsClosed discouragedWithLockTime ∧
      verifyScript lenientVerifier discouragedWithLockTime [] [0x51, 0xb1] [] = .ok () ∧
      verifyScript lenientVerifier discouraged [] [0x51, 0xb1] [] =
        .error (.error .DISCOURAGE_UPGRADABLE_NOPS) := by
  refine ⟨by decide, ⟨by decide, by decide⟩, ⟨by decide, by decide⟩, ?_, ?_⟩
  · decide +kernel
  · decide +kernel

end junkcoin
