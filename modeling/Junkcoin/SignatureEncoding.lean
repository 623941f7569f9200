-- The strict encoding of signatures. `OP_CHECKMULTISIG` tests the encoding
-- of each signature before it is checked; `OP_CHECKSIG` does not. So a run
-- checks only strict signatures exactly when the ones that `OP_CHECKSIG`
-- finds on the stack are strict.
import Junkcoin.Interpreter

namespace junkcoin

/-- A signature that the strict rule allows: empty, or strict DER. -/
def StrictOrEmpty (vchSig : Valtype) : Prop :=
  vchSig = [] ∨ isValidSignatureEncoding vchSig = true

section Steps

variable {ctx : ScriptContext} {flags : VerifyFlags} {s s' : ScriptState}
  {fVerify : Option ScriptError} {fExec : Bool} {stack : List Valtype} {script : CScript}
  {vchSig : Valtype}

/-! ## Opcodes that check no signature -/

/-- The opcode moved nothing in the script and checked no signature. -/
def LogKept (s s' : ScriptState) : Prop := s'.pc = s.pc ∧ s'.sigsChecked = s.sigsChecked

theorem stackOp_keeps {f : List Valtype → Option (List Valtype)} (h : stackOp f s = .ok s') :
    LogKept s s' := by
  unfold stackOp at h
  split at h
  · cases h
  · cases h
    exact ⟨rfl, rfl⟩

theorem pushBool_keeps {fValue : Bool} {rest : List Valtype}
    (h : pushBool fVerify fValue rest s = .ok s') : LogKept s s' := by
  unfold pushBool at h
  split at h
  · cases h
    exact ⟨rfl, rfl⟩
  · split at h
    · cases h
      exact ⟨rfl, rfl⟩
    · cases h

theorem opEqual_keeps (h : opEqual fVerify s = .ok s') : LogKept s s' := by
  unfold opEqual at h
  split at h
  · exact pushBool_keeps h
  · cases h

theorem opBranch_keeps {f : Bool → List Bool → List Bool} (h : opBranch f s = .ok s') :
    LogKept s s' := by
  unfold opBranch at h
  split at h
  · cases h
  · cases h
    exact ⟨rfl, rfl⟩

theorem opVerify_keeps (h : opVerify s = .ok s') : LogKept s s' := by
  unfold opVerify at h
  split at h
  · cases h
  · split at h
    · cases h
      exact ⟨rfl, rfl⟩
    · cases h

theorem opToAltStack_keeps (h : opToAltStack s = .ok s') : LogKept s s' := by
  unfold opToAltStack at h
  split at h
  · cases h
  · cases h
    exact ⟨rfl, rfl⟩

theorem opFromAltStack_keeps (h : opFromAltStack s = .ok s') :
    LogKept s s' := by
  unfold opFromAltStack at h
  split at h
  · cases h
  · cases h
    exact ⟨rfl, rfl⟩

theorem opPick_keeps {fRoll : Bool} (h : opPick flags fRoll s = .ok s') :
    LogKept s s' := by
  unfold opPick at h
  split at h
  · obtain ⟨n, _, h⟩ := bind_ok h
    dsimp only at h
    split at h
    · cases h
    · cases h
      exact ⟨rfl, rfl⟩
  · cases h

theorem opNum_keeps {f : Int → Int} (h : opNum flags f s = .ok s') :
    LogKept s s' := by
  unfold opNum at h
  split at h
  · obtain ⟨bn, _, h⟩ := bind_ok h
    cases h
    exact ⟨rfl, rfl⟩
  · cases h

theorem opNum2_keeps {f : Int → Int → Int} (h : opNum2 flags f s = .ok s') :
    LogKept s s' := by
  unfold opNum2 at h
  split at h
  · obtain ⟨bn1, _, h⟩ := bind_ok h
    obtain ⟨bn2, _, h⟩ := bind_ok h
    cases h
    exact ⟨rfl, rfl⟩
  · cases h

theorem numEqualVerify_keeps (h : numEqualVerify s = .ok s') :
    LogKept s s' := by
  unfold numEqualVerify at h
  split at h
  · cases h
  · split at h
    · cases h
      exact ⟨rfl, rfl⟩
    · cases h

theorem opWithin_keeps (h : opWithin flags s = .ok s') : LogKept s s' := by
  unfold opWithin at h
  split at h
  · obtain ⟨bn1, _, h⟩ := bind_ok h
    obtain ⟨bn2, _, h⟩ := bind_ok h
    obtain ⟨bn3, _, h⟩ := bind_ok h
    cases h
    exact ⟨rfl, rfl⟩
  · cases h

theorem opCheckLock_same {flag : VerifyFlag} {check : Int → Bool}
    (h : opCheckLock flags flag check s = .ok s') : s' = s := by
  unfold opCheckLock at h
  split at h
  · split at h
    · cases h
    · cases h
      rfl
  · split at h
    · cases h
    · obtain ⟨n, _, h⟩ := bind_ok h
      split at h
      · cases h
      · split at h
        · cases h
          rfl
        · cases h

theorem opNop_same (h : opNop flags s = .ok s') : s' = s := by
  unfold opNop at h
  split at h
  · cases h
  · cases h
    rfl

theorem opIf_keeps {fNot : Bool} (h : opIf ctx flags fExec fNot s = .ok s') : LogKept s s' := by
  unfold opIf at h
  split at h
  · split at h
    · cases h
    · split at h
      · cases h
      · cases h
        exact ⟨rfl, rfl⟩
  · cases h
    exact ⟨rfl, rfl⟩

/-- Every opcode but the four that check signatures. -/
theorem execOp_keeps {op : Opcodetype} (h : execOp ctx flags fExec s op = .ok s')
    (h1 : op ≠ .OP_CHECKSIG) (h2 : op ≠ .OP_CHECKSIGVERIFY) (h3 : op ≠ .OP_CHECKMULTISIG)
    (h4 : op ≠ .OP_CHECKMULTISIGVERIFY) : LogKept s s' := by
  cases op with
  | OP_CHECKSIG => exact absurd rfl h1
  | OP_CHECKSIGVERIFY => exact absurd rfl h2
  | OP_CHECKMULTISIG => exact absurd rfl h3
  | OP_CHECKMULTISIGVERIFY => exact absurd rfl h4
  | OP_PUSH | OP_DISABLED | OP_UNDEFINED | OP_RETURN => cases h
  | OP_N | OP_NOP | OP_DEPTH | OP_CODESEPARATOR =>
    cases h
    exact ⟨rfl, rfl⟩
  | OP_CHECKLOCKTIMEVERIFY | OP_CHECKSEQUENCEVERIFY =>
    rw [opCheckLock_same h]
    exact ⟨rfl, rfl⟩
  | OP_NOP1 | OP_NOP4 | OP_NOP5 | OP_NOP6 | OP_NOP7 | OP_NOP8 | OP_NOP9 | OP_NOP10 =>
    rw [opNop_same h]
    exact ⟨rfl, rfl⟩
  | OP_IF | OP_NOTIF => exact opIf_keeps h
  | OP_ELSE | OP_ENDIF => exact opBranch_keeps h
  | OP_VERIFY => exact opVerify_keeps h
  | OP_TOALTSTACK => exact opToAltStack_keeps h
  | OP_FROMALTSTACK => exact opFromAltStack_keeps h
  | OP_2DROP | OP_2DUP | OP_3DUP | OP_2OVER | OP_2ROT | OP_2SWAP | OP_IFDUP | OP_DROP | OP_DUP
  | OP_NIP | OP_OVER | OP_ROT | OP_SWAP | OP_TUCK | OP_SIZE | OP_RIPEMD160 | OP_SHA1 | OP_SHA256
  | OP_HASH160 | OP_HASH256 =>
    simp only [execOp] at h
    exact stackOp_keeps h
  | OP_PICK | OP_ROLL => exact opPick_keeps h
  | OP_EQUAL | OP_EQUALVERIFY => exact opEqual_keeps h
  | OP_1ADD | OP_1SUB | OP_NEGATE | OP_ABS | OP_NOT | OP_0NOTEQUAL => exact opNum_keeps h
  | OP_ADD | OP_SUB | OP_BOOLAND | OP_BOOLOR | OP_NUMEQUAL | OP_NUMNOTEQUAL | OP_LESSTHAN
  | OP_GREATERTHAN | OP_LESSTHANOREQUAL | OP_GREATERTHANOREQUAL | OP_MIN | OP_MAX =>
    exact opNum2_keeps h
  | OP_NUMEQUALVERIFY =>
    obtain ⟨t, ht, h⟩ := bind_ok h
    obtain ⟨hp, hs⟩ := opNum2_keeps ht
    obtain ⟨hp', hs'⟩ := numEqualVerify_keeps h
    exact ⟨hp'.trans hp, hs'.trans hs⟩
  | OP_WITHIN => exact opWithin_keeps h

/-! ## Opcodes that check signatures -/

/-- What an opcode adds to the log: the operand of `OP_CHECKSIG`, and
signatures whose encoding was tested. -/
structure Logs (flags : VerifyFlags) (operand : Option Valtype) (s s' : ScriptState) : Prop where
  pc : s'.pc = s.pc
  grows : ∀ vchSig ∈ s.sigsChecked, vchSig ∈ s'.sigsChecked
  logged : ∀ vchSig, operand = some vchSig → vchSig ∈ s'.sigsChecked
  only : ∀ vchSig ∈ s'.sigsChecked, vchSig ∈ s.sigsChecked ∨ operand = some vchSig ∨
    checkSignatureEncoding flags vchSig = .ok ()

theorem LogKept.logs (h : LogKept s s') : Logs flags none s s' := by
  refine ⟨h.1, ?_, ?_, ?_⟩
  · intro vchSig hmem
    rw [h.2]
    exact hmem
  · intro vchSig hop
    cases hop
  · intro vchSig hmem
    rw [h.2] at hmem
    exact Or.inl hmem

theorem opCheckSig_logs (h : opCheckSig ctx flags fVerify s = .ok s') :
    Logs flags s.stack[1]? s s' := by
  unfold opCheckSig at h
  split at h
  · rename_i vchPubKey vchSig rest hstack
    dsimp only at h
    split at h
    · cases h
    · obtain ⟨hpc, hsigs⟩ := pushBool_keeps h
      have hop : s.stack[1]? = some vchSig := by simp [hstack]
      rw [hop]
      refine ⟨hpc, ?_, ?_, ?_⟩
      · intro x hx
        rw [hsigs]
        exact List.mem_cons_of_mem _ hx
      · intro x hx
        cases hx
        rw [hsigs]
        exact List.mem_cons_self
      · intro x hx
        rw [hsigs] at hx
        rcases List.mem_cons.mp hx with rfl | hx
        · exact Or.inr (Or.inl rfl)
        · exact Or.inl hx
  · cases h

/-- The loop of `OP_CHECKMULTISIG` checks a signature after the test of its
encoding. -/
theorem multisigLoop_checks {scriptCode : CScript} {sigs keys checked : List Valtype}
    {result : Bool × List Valtype}
    (h : multisigLoop ctx flags scriptCode sigs keys checked = .ok result) :
    ∃ new, result.2 = new ++ checked ∧
      ∀ vchSig ∈ new, checkSignatureEncoding flags vchSig = .ok () := by
  -- each round uses up a key
  induction keys generalizing sigs checked with
  | nil =>
    cases sigs with
    | nil =>
      cases h
      exact ⟨[], rfl, by simp⟩
    | cons vchSig sigs =>
      cases h
      exact ⟨[], rfl, by simp⟩
  | cons vchPubKey keys ih =>
    cases sigs with
    | nil =>
      cases h
      exact ⟨[], rfl, by simp⟩
    | cons vchSig sigs =>
      simp only [multisigLoop] at h
      obtain ⟨_, hsig, h⟩ := bind_ok h
      obtain ⟨_, _, h⟩ := bind_ok h
      split at h
      · cases h
        exact ⟨[vchSig], rfl, by simpa using hsig⟩
      · obtain ⟨new, hnew, hall⟩ := ih h
        refine ⟨new ++ [vchSig], by simp [hnew], ?_⟩
        intro x hx
        rcases List.mem_append.mp hx with hx | hx
        · exact hall x hx
        · rw [List.mem_singleton.mp hx]
          exact hsig

theorem multisigResult_keeps {fSuccess : Bool}
    (h : multisigResult flags fVerify fSuccess s = .ok s') : LogKept s s' := by
  unfold multisigResult at h
  split at h
  · cases h
  · split at h
    · cases h
    · exact pushBool_keeps h

theorem opCheckMultisig_logs (h : opCheckMultisig ctx flags fVerify s = .ok s') :
    Logs flags none s s' := by
  obtain ⟨counts, _, h⟩ := bind_ok h
  obtain ⟨result, hloop, h⟩ := bind_ok h
  obtain ⟨stack, _, h⟩ := bind_ok h
  obtain ⟨hpc, hsigs⟩ := multisigResult_keeps h
  obtain ⟨new, hnew, hall⟩ := multisigLoop_checks hloop
  have hlog : s'.sigsChecked = new ++ s.sigsChecked := hsigs.trans hnew
  refine ⟨hpc, ?_, ?_, ?_⟩
  · intro vchSig hmem
    rw [hlog]
    exact List.mem_append_right _ hmem
  · intro vchSig hop
    cases hop
  · intro vchSig hmem
    rw [hlog] at hmem
    rcases List.mem_append.mp hmem with hmem | hmem
    · exact Or.inr (Or.inr (hall vchSig hmem))
    · exact Or.inl hmem

/-- `OP_CHECKSIG` and `OP_CHECKSIGVERIFY`. -/
def IsCheckSig (op : Opcodetype) : Prop := op = .OP_CHECKSIG ∨ op = .OP_CHECKSIGVERIFY

instance (op : Opcodetype) : Decidable (IsCheckSig op) := by
  unfold IsCheckSig
  infer_instance

theorem execOp_logs {op : Opcodetype} (h : execOp ctx flags fExec s op = .ok s') :
    Logs flags (if IsCheckSig op then s.stack[1]? else none) s s' := by
  by_cases hsig : IsCheckSig op
  · rcases hsig with rfl | rfl
    · exact opCheckSig_logs h
    · exact opCheckSig_logs h
  · rw [if_neg hsig]
    by_cases hmulti : op = .OP_CHECKMULTISIG ∨ op = .OP_CHECKMULTISIGVERIFY
    · rcases hmulti with rfl | rfl
      · exact opCheckMultisig_logs h
      · exact opCheckMultisig_logs h
    · apply LogKept.logs
      apply execOp_keeps h
      · exact fun e => hsig (Or.inl e)
      · exact fun e => hsig (Or.inr e)
      · exact fun e => hmulti (Or.inl e)
      · exact fun e => hmulti (Or.inr e)

/-! ## One iteration -/

/-- The signature that the next iteration hands over, when it executes
`OP_CHECKSIG` or `OP_CHECKSIGVERIFY`. -/
def checkSigOperand (s : ScriptState) : Option Valtype :=
  match getOp s.pc with
  | none => none
  | some (opcode, _, _) =>
    if s.fExec ∧ IsCheckSig (opcodeOf opcode) then s.stack[1]? else none

theorem dispatchOp_logs {opcode : UInt8} {vchPushValue : Valtype}
    (h : dispatchOp ctx flags opcode vchPushValue s = .ok s') :
    Logs flags (if s.fExec ∧ IsCheckSig (opcodeOf opcode) then s.stack[1]? else none) s s' := by
  unfold dispatchOp at h
  split at h
  · rename_i hpush
    have hop : ¬ IsCheckSig (opcodeOf opcode) := by
      rw [opcodeOf, if_pos hpush.2]
      decide
    rw [if_neg (fun hc => hop hc.2)]
    split at h
    · cases h
    · cases h
      exact LogKept.logs ⟨rfl, rfl⟩
  · split at h
    · rename_i hexec
      have hlogs := execOp_logs h
      by_cases hf : s.fExec
      · simpa [hf] using hlogs
      · -- the opcode is one of a conditional
        have hmem := opcodeOf_conditional (hexec.resolve_left hf).1 (hexec.resolve_left hf).2
        have hop : ¬ IsCheckSig (opcodeOf opcode) := by
          rintro (he | he)
          · rw [he] at hmem
            simp at hmem
          · rw [he] at hmem
            simp at hmem
        rw [if_neg (fun hc => hop hc.2)]
        rwa [if_neg hop] at hlogs
    · rename_i hexec
      rw [if_neg (fun hc => hexec (Or.inl hc.1))]
      cases h
      exact LogKept.logs ⟨rfl, rfl⟩

theorem fetchOp_ok {fetched : UInt8 × Valtype × ScriptState} (h : fetchOp s = .ok fetched) :
    ∃ pc nOpCount, getOp s.pc = some (fetched.1, fetched.2.1, pc) ∧
      fetched.2.2 = { s with pc, nOpCount } := by
  unfold fetchOp at h
  split at h
  · cases h
  · rename_i opcode vchPushValue pc hop
    split at h
    · cases h
    · split at h
      · cases h
      · split at h
        · cases h
        · cases h
          exact ⟨pc, _, hop, rfl⟩

theorem checkStackSize_ok (h : checkStackSize s = .ok s') : s' = s := by
  unfold checkStackSize at h
  split at h
  · cases h
  · cases h
    rfl

/-- What one iteration does to the script and to the log. -/
theorem evalStep_logs (h : evalStep ctx flags s = .ok s') :
    s'.pc.length < s.pc.length ∧ Logs flags (checkSigOperand s) { s with pc := s'.pc } s' := by
  obtain ⟨fetched, hfetch, h⟩ := bind_ok h
  obtain ⟨t, ht, h⟩ := bind_ok h
  obtain ⟨pc, nOpCount, hop, hs⟩ := fetchOp_ok hfetch
  rw [checkStackSize_ok h]
  obtain ⟨hpc, hgrows, hlogged, honly⟩ := dispatchOp_logs ht
  rw [hs] at hpc hgrows hlogged honly
  refine ⟨?_, rfl, hgrows, ?_, ?_⟩
  · rw [hpc]
    exact getOp_length hop
  · rw [checkSigOperand, hop]
    exact hlogged
  · rw [checkSigOperand, hop]
    exact honly

/-! ## The run -/

/-- The iterations of `EvalScript` come from the start to this state. -/
def EvalReaches (ctx : ScriptContext) (flags : VerifyFlags) (stack : List Valtype)
    (script : CScript) (s : ScriptState) : Prop :=
  Loop.Reaches (fun s => s.pc.isEmpty) (evalStep ctx flags) (startState stack script) s

/-- A run that returns true reaches its last state, with the script read to
its end. -/
theorem evalScript_reaches (h : evalScript ctx flags stack script = .ok s) :
    EvalReaches ctx flags stack script s ∧ s.pc = [] := by
  unfold evalScript at h
  split at h
  · cases h
  · obtain ⟨t, ht, h⟩ := bind_ok h
    have hst : s = t := by
      unfold checkBalanced at h
      split at h
      · cases h
      · cases h
        rfl
    subst hst
    refine ⟨Loop.run_reaches ht, ?_⟩
    have hstep : ∀ s t : ScriptState, True →
        Loop.Steps (fun s => s.pc.isEmpty) (evalStep ctx flags) s t →
        True ∧ t.pc.length < s.pc.length :=
      fun s t _ hst => ⟨trivial, (evalStep_logs hst.2).1⟩
    have hzero : ∀ s : ScriptState, True → s.pc.length = 0 → s.pc.isEmpty = true := by simp
    have hdone := Loop.run_done (s := startState stack script) (fun _ => True)
      (fun s : ScriptState => s.pc.length) hstep hzero trivial (Nat.le_refl _) ht
    exact List.isEmpty_iff.mp hdone

/-- What is in the log stays in it. -/
theorem log_grows {s t : ScriptState}
    (h : Loop.Reaches (fun s => s.pc.isEmpty) (evalStep ctx flags) s t)
    (hmem : vchSig ∈ s.sigsChecked) : vchSig ∈ t.sigsChecked := by
  have hkeep : ∀ s t : ScriptState, vchSig ∈ s.sigsChecked → evalStep ctx flags s = .ok t →
      vchSig ∈ t.sigsChecked := fun s t hin hstep => (evalStep_logs hstep).2.grows _ hin
  exact Loop.reaches_keeps (P := fun s : ScriptState => vchSig ∈ s.sigsChecked) hkeep hmem h

theorem checkSignatureEncoding_strict (hd : .DERSIG ∈ flags)
    (h : checkSignatureEncoding flags vchSig = .ok ()) : StrictOrEmpty vchSig := by
  unfold checkSignatureEncoding at h
  split at h
  · rename_i he
    exact Or.inl he
  · split at h
    · cases h
    · rename_i hbad
      apply Or.inr
      by_contra hinvalid
      exact hbad ⟨Or.inl hd, by simpa using hinvalid⟩

/-- When every operand of `OP_CHECKSIG` is strict, so is everything in the
log. -/
theorem log_strict (hd : .DERSIG ∈ flags)
    (hops : ∀ s, EvalReaches ctx flags stack script s →
      ∀ vchSig, checkSigOperand s = some vchSig → StrictOrEmpty vchSig)
    (h : EvalReaches ctx flags stack script s) :
    ∀ vchSig ∈ s.sigsChecked, StrictOrEmpty vchSig := by
  induction h with
  | refl =>
    intro vchSig hmem
    cases hmem
  | tail hreach hlast ih =>
    intro vchSig hmem
    rcases (evalStep_logs hlast.2).2.only vchSig hmem with hold | hop | htested
    · exact ih vchSig hold
    · exact hops _ hreach vchSig hop
    · exact checkSignatureEncoding_strict hd htested

/-- The operand of an `OP_CHECKSIG` that the run executes is in the log at
the end. -/
theorem operand_logged {final : ScriptState} (h : EvalReaches ctx flags stack script final)
    (hend : final.pc = []) (hs : EvalReaches ctx flags stack script s)
    (hop : checkSigOperand s = some vchSig) : vchSig ∈ final.sigsChecked := by
  have hrest := Loop.reaches_end (by simp [hend]) h hs
  rcases Relation.ReflTransGen.cases_head hrest with rfl | ⟨t, hstep, hrest⟩
  · rw [checkSigOperand, hend] at hop
    cases hop
  · exact log_grows hrest ((evalStep_logs hstep.2).2.logged vchSig hop)

end Steps

/-- The log of a run that returns true with `DERSIG` set is strict exactly
when each `OP_CHECKSIG` and `OP_CHECKSIGVERIFY` that it executes finds an
empty or a strict signature on the stack. -/
theorem dersig_enforced_iff (ctx : ScriptContext) (flags : VerifyFlags) (stack : List Valtype)
    (script : CScript) (final : ScriptState) (hd : .DERSIG ∈ flags)
    (h : evalScript ctx flags stack script = .ok final) :
    (∀ vchSig ∈ final.sigsChecked, vchSig ≠ [] → isValidSignatureEncoding vchSig = true) ↔
      ∀ s, EvalReaches ctx flags stack script s →
        ∀ vchSig, checkSigOperand s = some vchSig → StrictOrEmpty vchSig := by
  obtain ⟨hreach, hend⟩ := evalScript_reaches h
  constructor
  · intro hstrict s hs vchSig hop
    by_cases he : vchSig = []
    · exact Or.inl he
    · exact Or.inr (hstrict vchSig (operand_logged hreach hend hs hop) he)
  · intro hops vchSig hmem hne
    exact (log_strict hd hops hreach vchSig hmem).resolve_left hne

/-! ## A signature that is not strict -/

/-- A context whose checker takes every signature. -/
def lenientContext : ScriptContext where
  hashes := ⟨id, id, id, id, id⟩
  checker := ⟨fun _ _ _ _ => true, fun _ => true, fun _ => true⟩
  sigversion := .BASE

def dersigOnly : VerifyFlags := {.DERSIG}

/-- `OP_CHECKSIG` behind a signature of one byte and a key of one byte. -/
def shortSigScript : CScript := [0x01, 0x05, 0x01, 0x02, 0xac]

/-- The state at the end of the script. -/
def shortSigEnd : ScriptState where
  pc := []
  pbegincodehash := shortSigScript
  stack := [[1]]
  altstack := []
  vfExec := []
  nOpCount := 1
  sigsChecked := [[0x05]]

/-- `OP_CHECKSIG` hands a signature of one byte to the checker, with `DERSIG`
set. -/
theorem checksig_takes_short_signature :
    .DERSIG ∈ dersigOnly ∧
      evalScript lenientContext dersigOnly [] shortSigScript = .ok shortSigEnd ∧
      [0x05] ∈ shortSigEnd.sigsChecked ∧ isValidSignatureEncoding [0x05] = false := by
  decide +kernel

/-- The shortest strict signature, with its hash type. -/
def strictSig : Valtype := [0x30, 0x06, 0x02, 0x01, 0x01, 0x02, 0x01, 0x01, 0x01]

/-- `OP_CHECKSIGVERIFY` with an empty signature and `OP_CHECKSIG` with a strict
one. -/
def strictSigScript : CScript := [0x00, 0x01, 0x02, 0xad, 0x09] ++ strictSig ++ [0x01, 0x02, 0xac]

def strictSigEnd : ScriptState where
  pc := []
  pbegincodehash := strictSigScript
  stack := [[1]]
  altstack := []
  vfExec := []
  nOpCount := 2
  sigsChecked := [strictSig, []]

/-- The run with the strict signature is strict throughout. -/
theorem strict_signature_run :
    evalScript lenientContext dersigOnly [] strictSigScript = .ok strictSigEnd ∧
      ∀ s, EvalReaches lenientContext dersigOnly [] strictSigScript s →
        ∀ vchSig, checkSigOperand s = some vchSig → StrictOrEmpty vchSig := by
  have hrun : evalScript lenientContext dersigOnly [] strictSigScript = .ok strictSigEnd := by
    decide +kernel
  have hiff := dersig_enforced_iff lenientContext dersigOnly [] strictSigScript strictSigEnd
    (by decide) hrun
  exact ⟨hrun, hiff.mp (by decide +kernel)⟩

end junkcoin
