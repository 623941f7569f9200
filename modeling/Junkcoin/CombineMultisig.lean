-- `CombineMultisig` merges two partly signed scripts: it finds the key of each
-- signature by trial, and puts the signatures in the order of the keys, with
-- empty elements in the place of those that are missing.
import Junkcoin.Multisig

namespace junkcoin

open OrderedMatch

/-! ## The model -/

/-- The order of `std::vector<unsigned char>`. -/
def valtypeLess (v w : Valtype) : Bool := v.map UInt8.toNat < w.map UInt8.toNat

/-- `std::set<valtype>::insert`, on the elements in order. -/
def insertSig (v : Valtype) : List Valtype → List Valtype
  | [] => [v]
  | w :: rest =>
    if v = w then w :: rest
    else if valtypeLess v w then v :: w :: rest
    else w :: insertSig v rest

/-- All the signatures we've got. -/
def collectSigs (allsigs : List Valtype) (sigs : List Valtype) : List Valtype :=
  sigs.foldl (fun allsigs v => if v.isEmpty then allsigs else insertSig v allsigs) allsigs

/-- The `map<valtype, valtype>` from keys to signatures. -/
abbrev SigMap := Valtype → Option Valtype

/-- Give a signature to the first key that has none and that it is valid for. -/
def attributeSig (valid : Valtype → Valtype → Bool) (pubkeys : List Valtype) (sigs : SigMap)
    (sig : Valtype) : SigMap :=
  match pubkeys.find? fun pubkey => (sigs pubkey).isNone && valid sig pubkey with
  | some pubkey => Function.update sigs pubkey (some sig)
  | none => sigs

/-- The loop that builds the merged script. -/
def mergeSigs (sigs : SigMap) : (nSigsLeft : Nat) → (pubkeys : List Valtype) → List Valtype
  | 0, _ => []
  | _ + 1, [] => []
  | nSigsLeft + 1, pubkey :: pubkeys =>
    match sigs pubkey with
    | some sig => sig :: mergeSigs sigs nSigsLeft pubkeys
    | none => mergeSigs sigs (nSigsLeft + 1) pubkeys

variable (ctx : ScriptContext) {l sigs merged : List Valtype}

/-- `CombineMultisig`. -/
def combineMultisig (scriptPubKey : CScript) (vSolutions sigs1 sigs2 : List Valtype) :
    Check (List Valtype) := do
  let allsigs := collectSigs (collectSigs [] sigs1) sigs2
  assert (vSolutions.length > 1) "vSolutions.size() > 1"
  match vSolutions.head?.bind List.head? with
  | none => .error (.crash "out of range")
  | some required =>
    let nSigsRequired := required.toNat
    let pubkeys := (vSolutions.drop 1).take (vSolutions.length - 2)
    let sigs := allsigs.foldl (attributeSig
      (fun sig pubkey => ctx.checker.checkSig sig pubkey scriptPubKey ctx.sigversion) pubkeys)
      fun _ => none
    let merged := mergeSigs sigs nSigsRequired pubkeys
    -- fill any missing with OP_0; the first element is the one that is popped too many
    pure ([] :: (merged ++ List.replicate (nSigsRequired - merged.length) []))

/-- What `Solver` returns for an m-of-n script. -/
def multisigSolutions (m : Nat) (keys : List Valtype) : List Valtype :=
  [UInt8.ofNat m] :: (keys ++ [[UInt8.ofNat keys.length]])

/-! ## The signatures and their keys -/

theorem mem_insertSig {v w : Valtype} : w ∈ insertSig v l ↔ w = v ∨ w ∈ l := by
  induction l with
  | nil => simp [insertSig]
  | cons x l ih =>
    unfold insertSig
    split
    · rename_i h
      simp [h]
    · split
      · simp
      · simp [ih, or_left_comm]

theorem mem_collectSigs {v : Valtype} : v ∈ collectSigs l sigs ↔ v ∈ l ∨ v ∈ sigs ∧ v ≠ [] := by
  induction sigs generalizing l with
  | nil => simp [collectSigs]
  | cons w sigs ih =>
    refine ih.trans ?_
    cases w with
    | nil => simp; tauto
    | cons x w =>
      by_cases hv : v = x :: w <;> simp [mem_insertSig, hv]

section Attribution

variable {valid : Valtype → Valtype → Bool} {keys : List Valtype} {seen pubkeys : List Valtype}
  {sigs : SigMap}

/-- A key has a signature where one of those seen so far is valid for it. -/
structure Attributed (valid : Valtype → Valtype → Bool) (keys seen : List Valtype) (sigs : SigMap) :
    Prop where
  fits {key sig : Valtype} : sigs key = some sig → sig ∈ seen ∧ valid sig key = true
  found {key : Valtype} : key ∈ keys →
    ((sigs key).isSome = true ↔ ∃ sig ∈ seen, valid sig key = true)

/-- A signature of a key that is signed already. -/
theorem signed_append {sig key : Valtype}
    (h : valid sig key = true → ∃ v ∈ seen, valid v key = true) :
    (∃ v ∈ seen ++ [sig], valid v key = true) ↔ ∃ v ∈ seen, valid v key = true := by
  simp only [List.mem_append, List.mem_singleton, or_and_right, exists_or, exists_eq_left]
  exact or_iff_left_of_imp h

/-- One signature. -/
theorem Attributed.attributeSig {sig : Valtype} (h : Attributed valid keys seen sigs)
    (hunique : ∀ k ∈ keys, ∀ k' ∈ keys, valid sig k = true → valid sig k' = true → k = k') :
    Attributed valid keys (seen ++ [sig]) (attributeSig valid keys sigs sig) := by
  unfold junkcoin.attributeSig
  split
  · rename_i pubkey hfind
    have hmem := List.mem_of_find?_eq_some hfind
    have hgood := List.find?_some hfind
    simp only [Bool.and_eq_true] at hgood
    refine ⟨fun {key v} hv => ?_, fun {key} hkey => ?_⟩
    · by_cases heq : key = pubkey
      · subst heq
        rw [Function.update_self] at hv
        cases hv
        exact ⟨by simp, hgood.2⟩
      · rw [Function.update_of_ne heq] at hv
        exact ⟨by simp [(h.fits hv).1], (h.fits hv).2⟩
    · by_cases heq : key = pubkey
      · subst heq
        rw [Function.update_self]
        exact iff_of_true rfl ⟨sig, by simp, hgood.2⟩
      · rw [Function.update_of_ne heq, h.found hkey, signed_append]
        exact fun hvalid => absurd (hunique key hkey pubkey hmem hvalid hgood.2) heq
  · rename_i hfind
    refine ⟨fun hv => ⟨by simp [(h.fits hv).1], (h.fits hv).2⟩, fun {key} hkey => ?_⟩
    rw [h.found hkey, signed_append]
    -- its key has a signature already
    intro hvalid
    have hnot := List.find?_eq_none.mp hfind key hkey
    rw [hvalid, Bool.and_true] at hnot
    exact (h.found hkey).mp (by simpa [Option.isSome_iff_ne_none] using hnot)

/-- All of them. -/
theorem Attributed.fold (h : Attributed valid keys seen sigs) (rest : List Valtype)
    (hunique : ∀ sig ∈ rest, ∀ k ∈ keys, ∀ k' ∈ keys,
      valid sig k = true → valid sig k' = true → k = k') :
    Attributed valid keys (seen ++ rest) (rest.foldl (junkcoin.attributeSig valid keys) sigs) := by
  induction rest generalizing seen sigs with
  | nil => simpa using h
  | cons sig rest ih =>
    rw [List.foldl_cons, show seen ++ sig :: rest = (seen ++ [sig]) ++ rest by simp]
    exact ih (h.attributeSig (hunique sig List.mem_cons_self))
      fun v hv => hunique v (List.mem_cons_of_mem _ hv)

/-- The merged signatures are in the order of their keys. -/
theorem mergeSigs_matches {fits : Valtype → Valtype → Prop} {n : Nat}
    (h : ∀ key ∈ pubkeys, ∀ sig, sigs key = some sig → fits sig key) :
    Matches fits (mergeSigs sigs n pubkeys) pubkeys := by
  fun_induction mergeSigs sigs n pubkeys with
  | case1 => exact matches_nil
  | case2 => exact matches_nil
  | case3 n key pubkeys sig hsig ih =>
    rw [matches_cons_of_fits (h key List.mem_cons_self sig hsig)]
    exact ih fun k hk => h k (List.mem_cons_of_mem _ hk)
  | case4 n key pubkeys _ ih =>
    obtain ⟨chosen, hsub, hall⟩ :=
      matches_iff_sublist.mp (ih fun k hk => h k (List.mem_cons_of_mem _ hk))
    exact matches_iff_sublist.mpr ⟨chosen, hsub.cons key, hall⟩

theorem length_mergeSigs (sigs : SigMap) (n : Nat) (pubkeys : List Valtype) :
    (mergeSigs sigs n pubkeys).length =
      min n (pubkeys.filter fun key => (sigs key).isSome).length := by
  fun_induction mergeSigs sigs n pubkeys with
  | case1 => simp
  | case2 => simp
  | case3 n key pubkeys sig hsig ih => simp [ih, hsig]
  | case4 n key pubkeys hnone ih => simp [ih, hnone]

theorem mem_mergeSigs {n : Nat} {sig : Valtype} (h : sig ∈ mergeSigs sigs n pubkeys) :
    ∃ key, sigs key = some sig := by
  fun_induction mergeSigs sigs n pubkeys with
  | case1 => cases h
  | case2 => cases h
  | case3 n key pubkeys v hv ih =>
    rcases List.mem_cons.mp h with rfl | h
    · exact ⟨key, hv⟩
    · exact ih h
  | case4 n key pubkeys _ ih => exact ih h

end Attribution

/-! ## The merged script -/

section Combine

variable {ctx} {scriptPubKey : CScript} {m : Nat} {keys sigs1 sigs2 : List Valtype}

/-- The keys that have a valid signature in one of the lists. -/
def signedKeys (ctx : ScriptContext) (scriptPubKey : CScript) (keys sigs1 sigs2 : List Valtype) :
    List Valtype :=
  keys.filter fun key => (sigs1 ++ sigs2).any fun sig =>
    ctx.checker.checkSig sig key scriptPubKey ctx.sigversion

theorem pubkeys_multisigSolutions (m : Nat) (keys : List Valtype) :
    ((multisigSolutions m keys).drop 1).take ((multisigSolutions m keys).length - 2) = keys := by
  simp [multisigSolutions]

/-- What `CombineMultisig` returns: as many signatures as there are signed keys,
in the order of the keys, and empty elements up to `m`. -/
theorem combineMultisig_spec (hm : m < 256)
    (hunique : ∀ sig ∈ sigs1 ++ sigs2, ∀ k ∈ keys, ∀ k' ∈ keys,
      ctx.Valid scriptPubKey sig k → ctx.Valid scriptPubKey sig k' → k = k')
    (hempty : ∀ k ∈ keys, ¬ ctx.Valid scriptPubKey [] k) :
    ∃ merged, combineMultisig ctx scriptPubKey (multisigSolutions m keys) sigs1 sigs2 =
        .ok ([] :: (merged ++ List.replicate (m - merged.length) [])) ∧
      merged.length = min m (signedKeys ctx scriptPubKey keys sigs1 sigs2).length ∧
      (∀ sig ∈ merged, sig ∈ sigs1 ++ sigs2) ∧ Matches (ctx.Valid scriptPubKey) merged keys := by
  let valid sig pubkey := ctx.checker.checkSig sig pubkey scriptPubKey ctx.sigversion
  let allsigs := collectSigs (collectSigs [] sigs1) sigs2
  have hall (sig : Valtype) : sig ∈ allsigs ↔ sig ∈ sigs1 ++ sigs2 ∧ sig ≠ [] := by
    simp [allsigs, mem_collectSigs, or_and_right]
  have hstart : Attributed valid keys [] fun _ => none :=
    ⟨fun h => (by cases h), fun _ => by simp⟩
  have hmap := hstart.fold allsigs fun sig hsig => hunique sig ((hall sig).mp hsig).1
  generalize hsigs : allsigs.foldl (attributeSig valid keys) (fun _ => none) = sigs at hmap
  refine ⟨mergeSigs sigs m keys, ?_, ?_, fun sig hsig => ?_, ?_⟩
  · have hsize : (multisigSolutions m keys).length > 1 := by simp [multisigSolutions]
    have hrequired : (UInt8.ofNat m).toNat = m := UInt8.toNat_ofNat_of_lt' hm
    rw [combineMultisig, assert_bind (decide_eq_true hsize)]
    simp only [pubkeys_multisigSolutions]
    rw [show allsigs.foldl _ _ = sigs from hsigs]
    simp only [multisigSolutions, List.head?_cons, Option.bind_some, hrequired]
    rfl
  · rw [length_mergeSigs, signedKeys]
    congr 2
    refine List.filter_congr fun key hkey => Bool.eq_iff_iff.mpr ?_
    rw [hmap.found hkey, List.any_eq_true]
    constructor
    · rintro ⟨sig, hsig, hvalid⟩
      exact ⟨sig, ((hall sig).mp hsig).1, hvalid⟩
    · rintro ⟨sig, hsig, hvalid⟩
      refine ⟨sig, (hall sig).mpr ⟨hsig, ?_⟩, hvalid⟩
      rintro rfl
      exact hempty key hkey hvalid
  · obtain ⟨key, hkey⟩ := mem_mergeSigs hsig
    exact ((hall sig).mp (hmap.fits hkey).1).1
  · exact mergeSigs_matches fun key _ sig hsig => (hmap.fits hsig).2

theorem matches_congr (fits fits' : Valtype → Valtype → Prop) {xs ys : List Valtype}
    (h : ∀ x ∈ xs, ∀ y ∈ ys, (fits x y ↔ fits' x y)) : Matches fits xs ys ↔ Matches fits' xs ys :=
  exists_congr fun _ => and_congr_right fun _ => forall_congr' fun _ =>
    h _ (List.get_mem _ _) _ (List.get_mem _ _)

/-- An element that fits nothing is in no matching. -/
theorem not_matches_of_mem {fits : Valtype → Valtype → Prop} {xs ys : List Valtype} {x : Valtype}
    (hx : x ∈ xs) (hnone : ∀ y ∈ ys, ¬ fits x y) : ¬ Matches fits xs ys := by
  rintro ⟨f, -, hfits⟩
  obtain ⟨i, rfl⟩ := List.mem_iff_get.mp hx
  exact hnone _ (List.get_mem _ _) (hfits i)

end Combine

/-- The checker gives the same answers for the script that the interpreter takes
as for the one that is signed. -/
def SameAnswers (ctx : ScriptContext) (scriptPubKey scriptCode : CScript)
    (sigs keys : List Valtype) : Prop :=
  ∀ sig ∈ sigs, ∀ key ∈ keys, ctx.checker.checkSig sig key scriptCode ctx.sigversion =
    ctx.checker.checkSig sig key scriptPubKey ctx.sigversion

theorem mem_padded {k : Nat} {sig : Valtype} (hmem : ∀ sig ∈ merged, sig ∈ sigs)
    (h : sig ∈ merged ++ List.replicate k []) : sig ∈ [] :: sigs := by
  rcases List.mem_append.mp h with h | h
  · exact List.mem_cons_of_mem _ (hmem sig h)
  · rw [List.eq_of_mem_replicate h]
    exact List.mem_cons_self

/-- The empty element passes the tests of the encoding. -/
theorem Encoded.padded {ctx : ScriptContext} {flags : VerifyFlags} {keys : List Valtype} {k : Nat}
    (henc : Encoded ctx flags sigs keys) (hmem : ∀ sig ∈ merged, sig ∈ sigs) :
    Encoded ctx flags (merged ++ List.replicate k []) keys := by
  refine ⟨fun sig hsig => ?_, henc.pubKey⟩
  rcases List.mem_cons.mp (mem_padded hmem hsig) with rfl | h
  · rfl
  · exact henc.sig sig h

/-- Combining partial multisignatures is optimal: the merged elements satisfy
`OP_CHECKMULTISIG` exactly when `m` of the keys have a valid signature in one of
the lists. -/
theorem combineMultisig_optimal (ctx : ScriptContext) (flags : VerifyFlags)
    (scriptPubKey : CScript) (m : Nat) (keys sigs1 sigs2 : List Valtype) (hmn : m ≤ keys.length)
    (hn : keys.length ≤ MAX_PUBKEYS_PER_MULTISIG) (hnodup : keys.Nodup)
    (hunique : ∀ sig ∈ sigs1 ++ sigs2, ∀ k ∈ keys, ∀ k' ∈ keys,
      ctx.Valid scriptPubKey sig k → ctx.Valid scriptPubKey sig k' → k = k')
    (hempty : ∀ k ∈ keys, ¬ ctx.Valid scriptPubKey [] k)
    (henc : Encoded ctx flags (sigs1 ++ sigs2) keys) :
    ∃ sigs, combineMultisig ctx scriptPubKey (multisigSolutions m keys) sigs1 sigs2 =
        .ok ([] :: sigs) ∧ sigs.length = m ∧
      ∀ s : ScriptState, s.stack = multisigArguments sigs keys ++ [[]] →
        s.nOpCount + keys.length ≤ MAX_OPS_PER_SCRIPT →
        SameAnswers ctx scriptPubKey (scriptCodeFor ctx sigs.reverse s) ([] :: (sigs1 ++ sigs2))
          keys →
        ((∃ s', opCheckMultisig ctx flags none s = .ok s' ∧ s'.stack = [vchBool true]) ↔
          m ≤ ((signedKeys ctx scriptPubKey keys sigs1 sigs2).toFinset).card) := by
  have hmax : MAX_PUBKEYS_PER_MULTISIG = 20 := rfl
  obtain ⟨merged, hcombine, hlen, hmem, hmatches⟩ := combineMultisig_spec
    (show m < 256 by omega) hunique hempty
  have hcard : (signedKeys ctx scriptPubKey keys sigs1 sigs2).toFinset.card =
      (signedKeys ctx scriptPubKey keys sigs1 sigs2).length :=
    List.toFinset_card_of_nodup (hnodup.filter _)
  rw [hcard]
  refine ⟨_, hcombine, ?_, fun s hstack hops hsame => ?_⟩
  · rw [List.length_append, List.length_replicate]
    omega
  · obtain ⟨fSuccess, checked, hiff, hop⟩ := opCheckMultisig_of_stack (henc.padded hmem) hstack
      (by rw [List.length_append, List.length_replicate]; omega) hn hops none
    rw [matches_congr _ (ctx.Valid scriptPubKey) fun sig hsig key hkey => by
      rw [ScriptContext.Valid, ScriptContext.Valid,
        hsame sig (mem_padded hmem hsig) key hkey]] at hiff
    rw [hop]
    by_cases henough : m ≤ (signedKeys ctx scriptPubKey keys sigs1 sigs2).length
    · have hfull : m - merged.length = 0 := by omega
      rw [hfull, List.replicate_zero, List.append_nil] at hiff
      rw [if_neg (by simp [hiff.mpr hmatches]), if_neg (by simp), hiff.mpr hmatches]
      exact iff_of_true ⟨_, rfl, rfl⟩ henough
    · -- an empty element is left over
      have hmissing : [] ∈ merged ++ List.replicate (m - merged.length) [] :=
        List.mem_append_right _ (List.mem_replicate.mpr ⟨by omega, rfl⟩)
      have hfail : fSuccess = false :=
        Bool.eq_false_iff.mpr fun h => not_matches_of_mem hmissing hempty (hiff.mp h)
      refine iff_of_false ?_ henough
      rintro ⟨s', hs', htrue⟩
      split at hs'
      · cases hs'
      · rw [if_neg (by simp), hfail] at hs'
        cases hs'
        cases htrue

/-- Two lists with one signature each, for two of three keys. -/
theorem combineMultisig_two_of_three : ∃ sigs,
    combineMultisig sameBytesContext [] (multisigSolutions 2 [[1], [2], [3]]) [[], [3]] [[1]] =
        .ok ([] :: sigs) ∧
      ∀ s : ScriptState, s.stack = multisigArguments sigs [[1], [2], [3]] ++ [[]] →
        s.nOpCount + 3 ≤ MAX_OPS_PER_SCRIPT →
        ((∃ s', opCheckMultisig sameBytesContext ∅ none s = .ok s' ∧ s'.stack = [vchBool true]) ↔
          2 ≤ (signedKeys sameBytesContext [] [[1], [2], [3]] [[], [3]] [[1]]).toFinset.card) := by
  have hoff : EncodingFlagsOff ∅ := ⟨by simp, by simp, by simp, by simp⟩
  obtain ⟨sigs, hcombine, -, hop⟩ := combineMultisig_optimal sameBytesContext ∅ [] 2
    [[1], [2], [3]] [[], [3]] [[1]] (by decide) (by decide) (by decide)
    (by simp [ScriptContext.Valid, sameBytesContext])
    (by simp [ScriptContext.Valid, sameBytesContext]) (hoff.encoded _ _)
  exact ⟨sigs, hcombine, fun s hstack hops => hop s hstack hops fun _ _ _ _ => rfl⟩

/-- A checker that takes the empty signature for every key. -/
def emptySigContext : ScriptContext where
  hashes := sameBytesContext.hashes
  checker := ⟨fun vchSig _ _ _ => vchSig == [], fun _ => true, fun _ => true⟩
  sigversion := .BASE

/-- A placeholder that is a valid signature satisfies the opcode without one in
the lists. -/
theorem combineMultisig_placeholder :
    combineMultisig emptySigContext [] (multisigSolutions 1 [[1]]) [] [] = .ok [[], []] ∧
      (opCheckMultisig emptySigContext ∅ none
        ⟨[], [], multisigArguments [[]] [[1]] ++ [[]], [], [], 0, []⟩).map (·.stack) =
          .ok [vchBool true] ∧
      signedKeys emptySigContext [] [[1]] [] [] = [] := by
  decide +kernel

end junkcoin
