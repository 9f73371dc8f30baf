import ProviiCrypto.Circuit.Refinement
import ProviiCrypto.Commit.Nullifier
import ProviiCrypto.Snark.RegistryRuns

/-!
# The verifier's promise

Threads initialise the registry and verify proofs in any interleaving (`Process.run`). Of the proof
system only `KnowledgeSound` is asked, and only for the proofs that the run accepts: from each an
assignment can be extracted that satisfies the circuit. Then, along any run:

* `Process.Inv.accepted`: what was accepted was checked with a key that a successful initialisation
  had registered before, the last one under its id.
* `accepted_statements`: every statement accepted is true of the opening that is extracted; two
  accepted with one nullifier are about one commitment, date of birth and blinding factor, or the
  extracted openings are a relation between the hash's generators. And nothing counts the nullifiers:
  what is accepted once is accepted whenever it is sent again.
-/

namespace ProviiCrypto

open R1CS R1CS.Synth Number Gadgets

variable {H : Blake2s} (B : Bellman H) (S : Sapling) (J : Jubjub) (G : Groth16)
  (readVk : List UInt8 → Option G.VerifyingKey)

/-! ## What an accepted call was checked with -/

variable {G} in
/-- The key under an id is that of an entry with the id. -/
theorem registryOf_eq_some {all : List (UInt32 × List UInt8)} {vkId : UInt32}
    {pvk : G.PreparedVerifyingKey} (h : registryOf G readVk all vkId = some pvk) :
    ∃ bytes vk, (vkId, bytes) ∈ all ∧ readVk bytes = some vk ∧ pvk = G.prepareVerifyingKey vk := by
  unfold registryOf at h
  obtain ⟨⟨id, bytes⟩, hfind, hread⟩ := Option.bind_eq_some_iff.mp h
  obtain ⟨vk, hvk, rfl⟩ := Option.map_eq_some_iff.mp hread
  obtain rfl : id = vkId := by simpa using List.find?_some hfind
  exact ⟨bytes, vk, List.mem_reverse.mp (List.mem_of_find?_eq_some hfind), hvk, rfl⟩

/-- The result that echoes the arguments. -/
def VerifyArgs.result (args : VerifyArgs) : VerifyResult :=
  ⟨args.direction, args.cutoffDays, args.rpHash, args.issuerVkBytes, args.credNullifier, args.vkId⟩

/-- The public inputs of the arguments. -/
def VerifyArgs.inputs (args : VerifyArgs) : List Scalar :=
  (statementBits args.direction args.cutoffDays args.rpHash args.issuerVkBytes
    args.credNullifier).pack B

theorem VerifyArgs.assemble_eq (args : VerifyArgs) : assemblePublicInputsCanonical B args.direction
    args.cutoffDays args.rpHash args.issuerVkBytes args.credNullifier = .ok (args.inputs B) :=
  assemble_eq_ok B _ _ _ _ _

variable {G} in
/-- What is accepted of a key: bytes that decode to a proof which verifies for the inputs. -/
theorem VerifyArgs.check_eq_ok {args : VerifyArgs} {pvk : G.PreparedVerifyingKey}
    {res : VerifyResult} : args.check B G pvk = .ok res ↔
      (∃ proof, G.readProof args.proofBytes = some proof ∧
        G.verifyProof pvk proof (args.inputs B) = true) ∧ res = args.result := by
  unfold VerifyArgs.check
  rw [args.assemble_eq B]
  cases G.readProof args.proofBytes with
  | none => simp
  | some proof =>
    show (if G.verifyProof pvk proof (args.inputs B) then Except.ok args.result
      else .error Error.verificationFailed) = .ok res ↔ _
    by_cases hver : G.verifyProof pvk proof (args.inputs B) = true
    · rw [if_pos hver, Except.ok.injEq]
      exact ⟨fun h => ⟨⟨proof, rfl, hver⟩, h.symm⟩, fun h => h.2.symm⟩
    · rw [if_neg hver]
      refine ⟨nofun, ?_⟩
      rintro ⟨⟨proof', hproof, hver'⟩, -⟩
      exact absurd (Option.some.inj hproof ▸ hver') hver

variable {B G readVk}

/-- **An accepted verification**: an initialisation that succeeded before it had registered, under its
id, the key that the proof verifies with. -/
theorem Sequential.accepted {l₁ l₂ : List RegistryEntry} {args : VerifyArgs} {res : VerifyResult}
    (h : Sequential B G readVk (l₁ ++ (.verify args, .verify (.ok res)) :: l₂)) :
    res = args.result ∧ ∃ call all bytes vk proof, (call, .init (.ok ())) ∈ l₁ ∧
      call.entries = some all ∧ (args.vkId, bytes) ∈ all ∧ readVk bytes = some vk ∧
      G.readProof args.proofBytes = some proof ∧
      G.verifyProof (G.prepareVerifyingKey vk) proof (args.inputs B) = true := by
  -- without an initialisation there is no key
  obtain ⟨call, hcall⟩ : ∃ call, (call, .init (.ok ())) ∈ l₁ := by
    by_contra hnone
    push Not at hnone
    have hres := h.verify_eq
    rw [h.left.cellAfter_of_not_mem hnone] at hres
    cases hres
  obtain ⟨all, hall, -, -⟩ := h.left.cellAfter_of_mem hcall
  have hres := h.verify_of_mem hall hcall
  cases hkey : registryOf G readVk all args.vkId with
  | none =>
    rw [hkey] at hres
    cases hres
  | some pvk =>
    rw [hkey] at hres
    obtain ⟨bytes, vk, hmem, hvk, rfl⟩ := registryOf_eq_some readVk hkey
    obtain ⟨⟨proof, hproof, hver⟩, rfl⟩ := (VerifyArgs.check_eq_ok B).mp hres.symm
    exact ⟨rfl, call, all, bytes, vk, proof, hcall, hall, hmem, hvk, hproof, hver⟩

/-- **Nothing counts the proofs**: what was accepted is accepted whenever it is sent again. -/
theorem Sequential.accepted_again {l₁ l₂ l₃ : List RegistryEntry} {args : VerifyArgs}
    {res : VerifyResult} {r : Except Error VerifyResult}
    (h : Sequential B G readVk (l₁ ++ (.verify args, .verify (.ok res)) :: l₂ ++
      (.verify args, .verify r) :: l₃)) : r = .ok res := by
  obtain ⟨-, call, all, -, -, -, hcall, hall, -⟩ := h.left.accepted
  rw [h.left.verify_of_mem hall hcall]
  exact h.verify_of_mem hall (List.mem_append_left _ hcall)

/-! ## What an accepted statement says -/

/-- The direction of a boolean, as the callers encode it. -/
def AgeDirection.ofBool (direction : Bool) : AgeDirection := if direction then .over else .under

theorem AgeDirection.decide_ofBool (direction : Bool) :
    decide (AgeDirection.ofBool direction = .over) = direction := by
  cases direction <;> rfl

variable (G) in
/-- **What the proof system promises of a key**, for some proofs with their inputs: from each of these
that verifies, an assignment can be extracted that satisfies the constraints and has the public inputs
verified. Of other proofs, which nobody made, nothing is asked. -/
structure KnowledgeSound (ops : List (Op Scalar)) (extract : G.Proof → List Scalar → Assignment Scalar)
    (proofs : Set (G.Proof × List Scalar)) (pvk : G.PreparedVerifyingKey) : Prop where
  holds : ∀ proof inputs, (proof, inputs) ∈ proofs → G.verifyProof pvk proof inputs = true →
    Holds (extract proof inputs) ops
  inputs : ∀ proof inputs, (proof, inputs) ∈ proofs → G.verifyProof pvk proof inputs = true →
    publicInputs (extract proof inputs) = inputs

variable (B G) in
/-- The proofs of a log's accepted calls, with their inputs. -/
def acceptedProofs (log : List RegistryEntry) : Set (G.Proof × List Scalar) :=
  {pi | ∃ args res, (.verify args, .verify (.ok res)) ∈ log ∧
    G.readProof args.proofBytes = some pi.1 ∧ pi.2 = args.inputs B}

variable (B) in
/-- The opening that the extractor finds in the proof of a call. -/
def VerifyArgs.Extracts (args : VerifyArgs) (extract : G.Proof → List Scalar → Assignment Scalar)
    (x : WitnessWires) (o : Opening) : Prop :=
  ∃ proof, G.readProof args.proofBytes = some proof ∧
    WitnessReads (extract proof (args.inputs B)) x o

theorem VerifyArgs.Extracts.unique {args : VerifyArgs}
    {extract : G.Proof → List Scalar → Assignment Scalar} {x : WitnessWires} {o o' : Opening}
    (h : args.Extracts B extract x o) (h' : args.Extracts B extract x o') : o = o' := by
  obtain ⟨proof, hproof, ho⟩ := h
  obtain ⟨proof', hproof', ho'⟩ := h'
  obtain rfl := Option.some.inj (hproof.symm.trans hproof')
  exact ho.unique ho'

/-- The statement of a call, of an opening. -/
def VerifyArgs.Says (S : Sapling) (H : Blake2s) (args : VerifyArgs) (o : Opening) : Prop :=
  Relation H S (.ofBool args.direction) args.cutoffDays args.issuerVkBytes args.credNullifier o

/-- The openings are of one commitment, with one date of birth and one blinding factor. The rest of
the two credentials may differ. -/
def Opening.SameCommitmentDobBlinding (o o' : Opening) : Prop :=
  o.c = o'.c ∧ o.dob = o'.dob ∧ o.r = o'.r

/-- The openings are a relation between the generators, by what their commitments' bits multiply these
with in the nullifiers, or theirs in the commitments. -/
def Opening.Relates (S : Sapling) (o o' : Opening) : Prop :=
  IsRelation subgroupOrder (Sapling.nullifierDifferences o.c o'.c) S.generators ∨
    IsRelation subgroupOrder (Sapling.openingDifferences o.dob o'.dob o.r o'.r) S.generators

/-- **One nullifier, one commitment**: openings with one nullifier and blinding factors of one length
are of one commitment, date of birth and blinding factor, or a relation between the generators. -/
theorem Relation.sameCommitmentDobBlinding {d d' : AgeDirection} {cutoff cutoff' : Int32}
    {vk vk' nul : Bytes 32} {o o' : Opening} (h : Relation H S d cutoff vk nul o)
    (h' : Relation H S d' cutoff' vk' nul o') (hlen : o.r.length = o'.r.length) :
    o.SameCommitmentDobBlinding o' ∨ o.Relates S o' := by
  by_cases hc : o.c = o'.c
  · have hcommit := h'.commitment
    rw [← hc] at hcommit
    rcases Sapling.opening_eq_or_isRelation h.commitment hcommit hlen with ⟨hdob, hr⟩ | hrelation
    · exact .inl ⟨hc, hdob, hr⟩
    · exact .inr (.inr hrelation)
  · exact .inr (.inl ((S.pedersenNullifier_collision_iff o.c o'.c).mp
      ⟨h.nullifier.symm.trans h'.nullifier, hc⟩))

section

variable {circuit : AgeCircuit} {md : Mode} {p : PublicWires} {x : WitnessWires}
  {ops : List (Op Scalar)} {extract : G.Proof → List Scalar → Assignment Scalar}

/-- A proof that verifies for the arguments of a call yields an opening that they say true. -/
theorem KnowledgeSound.extracts {proofs : Set (G.Proof × List Scalar)} {pvk : G.PreparedVerifyingKey}
    (h : KnowledgeSound G ops extract proofs pvk)
    (hrun : synthesizeWires B S J circuit md .init = .ok ((p, x), ops)) {args : VerifyArgs}
    {proof : G.Proof} (hproof : G.readProof args.proofBytes = some proof)
    (hmem : (proof, args.inputs B) ∈ proofs)
    (hver : G.verifyProof pvk proof (args.inputs B) = true) :
    ∃ o, args.Extracts B extract x o ∧ o.Admissible ∧ args.Says S H o := by
  have hin := args.assemble_eq B
  rw [← h.inputs _ _ hmem hver, ← AgeDirection.decide_ofBool args.direction] at hin
  obtain ⟨-, o, hr, ho, hrel⟩ := synthesizeWires_sound B S J hrun (h.holds _ _ hmem hver) hin
  exact ⟨o, ⟨proof, hproof, ho⟩, ho.admissible hr, hrel⟩

variable (B G readVk) in
/-- **The verifier's promise.** Along any interleaving of calls, when the keys of the initialisation
that succeeded are knowledge sound, for the circuit's constraints and the proofs of the accepted calls:
every accepted call yields one opening, admissible and in the relation with the arguments, which the
result echoes; the openings of two accepted calls with one nullifier are of one commitment, date of
birth and blinding factor, or a relation between the generators; and a call that was accepted is
accepted whenever it is made again. -/
theorem accepted_statements (hrun : synthesizeWires B S J circuit md .init = .ok ((p, x), ops))
    (moves : List Move)
    (hkeys : ∀ call all e vk,
      (call, .init (.ok ())) ∈ ((Process.start G).run B G readVk moves).log →
      call.entries = some all → e ∈ all → readVk e.2 = some vk →
      KnowledgeSound G ops extract
        (acceptedProofs B G ((Process.start G).run B G readVk moves).log)
        (G.prepareVerifyingKey vk)) :
    let log := ((Process.start G).run B G readVk moves).log
    (∀ args res, (.verify args, .verify (.ok res)) ∈ log → res = args.result ∧
      ∃ o, args.Extracts B extract x o ∧ (∀ o', args.Extracts B extract x o' → o' = o) ∧
        o.Admissible ∧ args.Says S H o) ∧
    (∀ args args' res res' o o', (.verify args, .verify (.ok res)) ∈ log →
      (.verify args', .verify (.ok res')) ∈ log → args.credNullifier = args'.credNullifier →
      args.Extracts B extract x o → args'.Extracts B extract x o' →
      o.SameCommitmentDobBlinding o' ∨ o.Relates S o') ∧
    ∀ l₁ l₂ l₃ args res r, log = l₁ ++ (.verify args, .verify (.ok res)) :: l₂ ++
      (.verify args, .verify r) :: l₃ → r = .ok res := by
  intro log
  have hlog : Sequential B G readVk log := (Process.Inv.start.run moves).sequential
  -- the key of an accepted call is among those of an initialisation that succeeded
  have haccepted : ∀ args res, (.verify args, .verify (.ok res)) ∈ log → res = args.result ∧
      ∃ o, args.Extracts B extract x o ∧ o.Admissible ∧ args.Says S H o := by
    intro args res haccept
    obtain ⟨l₁, l₂, hsplit⟩ := List.append_of_mem haccept
    rw [hsplit] at hlog
    obtain ⟨hres, call, all, bytes, vk, proof, hcall, hall, he, hvk, hproof, hver⟩ := hlog.accepted
    have hsound := hkeys call all (args.vkId, bytes) vk
      (show _ ∈ log from hsplit ▸ List.mem_append_left _ hcall) hall he hvk
    have hproofs : (proof, args.inputs B) ∈ acceptedProofs B G log :=
      ⟨args, res, haccept, hproof, rfl⟩
    exact ⟨hres, hsound.extracts S J hrun hproof hproofs hver⟩
  refine ⟨?_, ?_, ?_⟩
  · intro args res hmem
    obtain ⟨hres, o, ho, hadmissible, hsays⟩ := haccepted args res hmem
    exact ⟨hres, o, ho, fun o' ho' => ho'.unique ho, hadmissible, hsays⟩
  · intro args args' res res' o o' hmem hmem' hnul ho ho'
    obtain ⟨-, q, hq, hadmissible, hsays⟩ := haccepted args res hmem
    obtain ⟨-, q', hq', hadmissible', hsays'⟩ := haccepted args' res' hmem'
    obtain rfl := ho.unique hq
    obtain rfl := ho'.unique hq'
    unfold VerifyArgs.Says at hsays hsays'
    rw [hnul] at hsays
    exact hsays.sameCommitmentDobBlinding S hsays'
      (hadmissible.length_r.trans hadmissible'.length_r.symm)
  · intro l₁ l₂ l₃ args res r hsplit
    rw [hsplit] at hlog
    exact hlog.accepted_again

end

/-! ### A run that accepts -/

open Classical in
/-- A proof system that hides nothing: proofs are assignments, and a proof verifies when it satisfies
the constraints. On the wire there is one of them, as the byte 1. -/
noncomputable def revealing (ops : List (Op Scalar)) (w : Assignment Scalar) : Groth16 where
  Parameters := Unit
  VerifyingKey := Unit
  PreparedVerifyingKey := Unit
  Proof := Assignment Scalar
  vk := id
  writeVk _ := some []
  prepareVerifyingKey := id
  writeProof _ := some [1]
  readProof bytes := if bytes = [1] then some w else none
  verifyProof _ proof inputs := decide (Holds proof ops ∧ publicInputs proof = inputs)

theorem revealing_verifyProof {ops : List (Op Scalar)} {w proof : Assignment Scalar}
    {inputs : List Scalar} : (revealing ops w).verifyProof () proof inputs = true ↔
      Holds proof ops ∧ publicInputs proof = inputs := by
  classical
  exact decide_eq_true_iff

theorem knowledgeSound_revealing (ops : List (Op Scalar)) (w : Assignment Scalar)
    (proofs : Set (Assignment Scalar × List Scalar)) :
    KnowledgeSound (revealing ops w) ops (fun proof _ => proof) proofs () where
  holds _ _ _ h := (revealing_verifyProof.mp h).1
  inputs _ _ _ h := (revealing_verifyProof.mp h).2

/-- The sample statement as a call, under id 0. -/
def credArgs (cutoffDays : Int32) : VerifyArgs where
  proofBytes := [1]
  direction := true
  cutoffDays := cutoffDays
  rpHash := (credPublic .over cutoffDays).rpHash
  issuerVkBytes := spendingKeyGenBytes
  credNullifier := (credPublic .over cutoffDays).credNullifier
  vkId := 0

/-- A thread initialises the registry while another verifies, before and after. -/
def credMoves : List Move :=
  [.call 0 (.initBytes [1]), .step 0, .call 1 (.verify (credArgs 10000)), .step 1, .step 0, .step 1,
    .step 0, .step 0, .call 1 (.verify (credArgs 10000)), .step 1]

theorem accepted_statements_cred :
    ∃ ops w x, (.verify (credArgs 10000), .verify (.ok (credArgs 10000).result)) ∈
        ((Process.start _).run (Reference.bellman Reference.blake2s) (revealing ops w)
          (fun _ => some ()) credMoves).log ∧
      ∃ o, (credArgs 10000).Extracts (Reference.bellman Reference.blake2s) (G := revealing ops w)
          (fun proof _ => proof) x o ∧
        (credArgs 10000).Says Reference.sapling Reference.blake2s o := by
  let B := Reference.bellman Reference.blake2s
  obtain ⟨⟨p, x⟩, ops, w, hrun, hw, hin⟩ := exists_credRun .over 10000 (by decide)
  refine ⟨ops, w, x, ?_⟩
  let log := ((Process.start _).run B (revealing ops w) (fun _ => some ()) credMoves).log
  have hlog : log = [(.verify (credArgs 10000), .verify (.error .verifierNotInitialized)),
      (.initBytes [1], .init (.ok ())),
      (.verify (credArgs 10000), .verify ((credArgs 10000).check B (revealing ops w) ()))] := rfl
  have hcheck : (credArgs 10000).check B (revealing ops w) () = .ok (credArgs 10000).result :=
    (VerifyArgs.check_eq_ok B).mpr ⟨⟨w, rfl, revealing_verifyProof.mpr ⟨hw,
      Except.ok.inj (hin.symm.trans ((credArgs 10000).assemble_eq B))⟩⟩, rfl⟩
  rw [hcheck] at hlog
  have hmem : (.verify (credArgs 10000), .verify (.ok (credArgs 10000).result)) ∈ log := by
    rw [hlog]
    simp
  obtain ⟨haccepted, -⟩ := accepted_statements B Reference.sapling .standard (revealing ops w)
    (fun _ => some ()) hrun credMoves fun _ _ _ _ _ _ _ _ =>
      knowledgeSound_revealing ops w _
  obtain ⟨-, o, ho, -, -, hsays⟩ := haccepted _ _ hmem
  exact ⟨hmem, o, ho, hsays⟩

end ProviiCrypto
