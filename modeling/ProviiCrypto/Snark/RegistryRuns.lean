import ProviiCrypto.Reference.Blake2s
import ProviiCrypto.Reference.Groth16
import ProviiCrypto.Snark.Registry

/-!
# Runs of the registry

Threads call the verifier's functions. A call is a thread's own work, entry by entry, around one
access to the registry: `get` for a verification, `set` for an initialisation whose entries have
all been loaded. A schedule says which thread moves next, so a run of a schedule is any
interleaving, and the log has the calls in the order in which their outcome was settled.

* `Inv.run`: along any run each call answers as if it had been run at once where the log has it.
* `registry_state_machine`: what holds of all runs.
-/

namespace ProviiCrypto

open Number

section

variable {H : Blake2s} (B : Bellman H) (G : Groth16)
  (readVk : List UInt8 → Option G.VerifyingKey)

/-! ## Calls -/

/-- The arguments of `verify_age_snark`. -/
structure VerifyArgs where
  proofBytes : List UInt8
  direction : Bool
  cutoffDays : Int32
  rpHash : Bytes 32
  issuerVkBytes : Bytes 32
  credNullifier : Bytes 32
  vkId : UInt32
  deriving DecidableEq

/-- A call of the verifier. -/
inductive RegistryCall where
  | initBytes (bytes : List UInt8)
  | initRegistry (entries : List (UInt32 × List UInt8))
  | verify (args : VerifyArgs)
  deriving DecidableEq

/-- What it returns. -/
inductive RegistryResponse where
  | init (r : Except Error Unit)
  | verify (r : Except Error VerifyResult)

/-- The entries that an initialisation registers. -/
def RegistryCall.entries : RegistryCall → Option (List (UInt32 × List UInt8))
  | .initBytes bytes => some [(0, bytes)]
  | .initRegistry entries => some entries
  | .verify _ => none

/-- `verify_age_snark`. -/
def VerifyArgs.verify (args : VerifyArgs) (cell : Option (VkRegistry G)) :
    Except Error VerifyResult :=
  verifyAgeSnark B G cell args.proofBytes args.direction args.cutoffDays args.rpHash
    args.issuerVkBytes args.credNullifier args.vkId

/-- What `verify_age_snark` does with the key it has found. -/
def VerifyArgs.check (args : VerifyArgs) (pvk : G.PreparedVerifyingKey) :
    Except Error VerifyResult :=
  match assemblePublicInputsCanonical B args.direction args.cutoffDays args.rpHash
    args.issuerVkBytes args.credNullifier with
  | .error _ => .error .invalidInput
  | .ok inputs =>
    match G.readProof args.proofBytes with
    | none => .error .invalidFormat
    | some proof =>
      if G.verifyProof pvk proof inputs then
        .ok ⟨args.direction, args.cutoffDays, args.rpHash, args.issuerVkBytes, args.credNullifier,
          args.vkId⟩
      else .error .verificationFailed

theorem VerifyArgs.verify_eq (args : VerifyArgs) (cell : Option (VkRegistry G)) :
    args.verify B G cell =
      match cell.bind fun r => r args.vkId with
      | none => .error .verifierNotInitialized
      | some pvk => args.check B G pvk := rfl

theorem VerifyArgs.check_ne (args : VerifyArgs) (pvk : G.PreparedVerifyingKey) :
    args.check B G pvk ≠ .error .verifierNotInitialized := by
  unfold VerifyArgs.check
  split
  · simp
  split
  · simp
  split <;> simp

/-- A call run at once. -/
def RegistryCall.apply (cell : Option (VkRegistry G)) :
    RegistryCall → RegistryResponse × Option (VkRegistry G)
  | .initBytes bytes =>
    (.init (initWithVkBytes G readVk bytes cell).1, (initWithVkBytes G readVk bytes cell).2)
  | .initRegistry entries =>
    (.init (initWithVkRegistry G readVk entries cell).1,
      (initWithVkRegistry G readVk entries cell).2)
  | .verify args => (.verify (args.verify B G cell), cell)

/-! ## Threads -/

/-- A call and its outcome. -/
abbrev RegistryEntry : Type := RegistryCall × RegistryResponse

/-- Where a thread is. -/
inductive Thread (G : Groth16) where
  | idle
  | called (call : RegistryCall)
  /-- In the loop, with the entries that remain and the map so far. -/
  | loading (call : RegistryCall) (entries : List (UInt32 × List UInt8)) (map : VkRegistry G)
  /-- Before `VK_REGISTRY.set(map)`. -/
  | storing (call : RegistryCall) (map : VkRegistry G)
  /-- After `VK_REGISTRY.get()` has found the key. -/
  | checking (args : VerifyArgs) (pvk : G.PreparedVerifyingKey)
  | returned (call : RegistryCall) (response : RegistryResponse)

/-- One step of a thread: where it is then, what the cell holds, and the entry of the log if the
step settles the outcome of the call. -/
def Thread.next (cell : Option (VkRegistry G)) :
    Thread G → Thread G × Option (VkRegistry G) × List RegistryEntry
  | .idle => (.idle, cell, [])
  | .called (.initBytes bytes) =>
    (.loading (.initBytes bytes) [(0, bytes)] (VkRegistry.empty G), cell, [])
  | .called (.initRegistry entries) =>
    let call := .initRegistry entries
    if entries.isEmpty then
      (.returned call (.init (.error .invalidInput)), cell,
        [(call, .init (.error .invalidInput))])
    else (.loading call entries (VkRegistry.empty G), cell, [])
  | .called (.verify args) =>
    let call := .verify args
    match cell.bind fun r => r args.vkId with
    | none =>
      (.returned call (.verify (.error .verifierNotInitialized)), cell,
        [(call, .verify (.error .verifierNotInitialized))])
    | some pvk => (.checking args pvk, cell, [(call, .verify (args.check B G pvk))])
  | .loading call [] map => (.storing call map, cell, [])
  | .loading call ((vkId, bytes) :: entries) map =>
    match loadVk G readVk bytes with
    | .error e => (.returned call (.init (.error e)), cell, [(call, .init (.error e))])
    | .ok pvk => (.loading call entries (map.insert vkId pvk), cell, [])
  | .storing call map =>
    (.returned call (.init (setRegistry map cell).1), (setRegistry map cell).2,
      [(call, .init (setRegistry map cell).1)])
  | .checking args pvk =>
    (.returned (.verify args) (.verify (args.check B G pvk)), cell, [])
  | .returned _ _ => (.idle, cell, [])

/-- The process: `VK_REGISTRY`, its threads, and the log. -/
structure Process (G : Groth16) where
  cell : Option (VkRegistry G)
  threads : ℕ → Thread G
  log : List RegistryEntry

/-- What a scheduler can do: let an idle thread call, or let a thread take a step. -/
inductive Move where
  | call (t : ℕ) (call : RegistryCall)
  | step (t : ℕ)

/-- The process before any call. -/
def Process.start : Process G := ⟨none, fun _ => .idle, []⟩

/-- One move. -/
def Process.move (p : Process G) : Move → Process G
  | .call t call =>
    match p.threads t with
    | .idle => { p with threads := Function.update p.threads t (.called call) }
    | _ => p
  | .step t =>
    let (thread, cell, entries) := (p.threads t).next B G readVk p.cell
    ⟨cell, Function.update p.threads t thread, p.log ++ entries⟩

/-- A run of a schedule. -/
def Process.run (p : Process G) (moves : List Move) : Process G := moves.foldl (Process.move B G readVk) p

/-! ## What a log can say -/

/-- What the cell holds after the calls of a log, run at once one after the other. -/
def cellAfter (log : List RegistryEntry) : Option (VkRegistry G) :=
  log.foldl (fun cell e => (e.1.apply B G readVk cell).2) none

/-- Each call of a log answers as if it had been run at once after the calls before it. -/
def Sequential (log : List RegistryEntry) : Prop :=
  ∀ l₁ call response l₂, log = l₁ ++ (call, response) :: l₂ →
    response = (call.apply B G readVk (cellAfter B G readVk l₁)).1

variable {B G readVk}

theorem cellAfter_append (l₁ l₂ : List RegistryEntry) : cellAfter B G readVk (l₁ ++ l₂) =
    l₂.foldl (fun cell e => (e.1.apply B G readVk cell).2) (cellAfter B G readVk l₁) :=
  List.foldl_append

@[simp] theorem cellAfter_concat (l : List RegistryEntry) (e : RegistryEntry) :
    cellAfter B G readVk (l ++ [e]) = (e.1.apply B G readVk (cellAfter B G readVk l)).2 :=
  cellAfter_append l [e]

theorem Sequential.left {l₁ l₂ : List RegistryEntry} (h : Sequential B G readVk (l₁ ++ l₂)) :
    Sequential B G readVk l₁ := by
  intro k₁ call response k₂ heq
  refine h k₁ call response (k₂ ++ l₂) ?_
  rw [heq, List.append_assoc, List.cons_append]

/-- A log grows by a call that is run at once. -/
theorem Sequential.concat {l : List RegistryEntry} (h : Sequential B G readVk l)
    (call : RegistryCall) : Sequential B G readVk
      (l ++ [(call, (call.apply B G readVk (cellAfter B G readVk l)).1)]) := by
  intro k₁ call' response k₂ heq
  rcases List.eq_nil_or_concat k₂ with rfl | ⟨k₂, e, rfl⟩
  · obtain ⟨rfl, hlast⟩ := List.append_inj' heq rfl
    cases hlast
    rfl
  · rw [List.concat_eq_append, ← List.cons_append, ← List.append_assoc] at heq
    exact h k₁ call' response k₂ (List.append_inj' heq rfl).1

/-! ## A run answers like its log -/

/-- Both initialisations are one of their entries. -/
theorem RegistryCall.apply_of_entries {call : RegistryCall} {all : List (UInt32 × List UInt8)}
    (h : call.entries = some all) (cell : Option (VkRegistry G)) :
    call.apply B G readVk cell = (.init (initWithVkRegistry G readVk all cell).1,
      (initWithVkRegistry G readVk all cell).2) := by
  cases call with
  | initBytes bytes =>
    obtain rfl := Option.some.inj h
    simp only [RegistryCall.apply, initWithVkBytes_eq]
  | initRegistry entries =>
    obtain rfl := Option.some.inj h
    rfl
  | verify args => cases h

theorem initWithVkRegistry_of_ne_nil {all : List (UInt32 × List UInt8)} (h : all ≠ [])
    (cell : Option (VkRegistry G)) : initWithVkRegistry G readVk all cell =
      match insertEntries G readVk all (VkRegistry.empty G) with
      | .error e => (.error e, cell)
      | .ok map => setRegistry map cell := by
  have hne : ¬ all.isEmpty = true := by simpa using h
  unfold initWithVkRegistry
  exact (if_neg hne).trans rfl

variable (B readVk) in
/-- What is true of a thread, given the log. -/
def Thread.Ok (log : List RegistryEntry) : Thread G → Prop
  | .idle => True
  | .called _ => True
  | .loading call entries map => ∃ all, call.entries = some all ∧ all ≠ [] ∧
      insertEntries G readVk all (VkRegistry.empty G) = insertEntries G readVk entries map
  | .storing call map => ∃ all, call.entries = some all ∧ all ≠ [] ∧
      insertEntries G readVk all (VkRegistry.empty G) = .ok map
  | .checking args pvk => (.verify args, .verify (args.check B G pvk)) ∈ log
  | .returned call response => (call, response) ∈ log

theorem Thread.Ok.append {log : List RegistryEntry} {thread : Thread G}
    (h : thread.Ok B readVk log) (l : List RegistryEntry) : thread.Ok B readVk (log ++ l) := by
  cases thread with
  | idle => trivial
  | called call => trivial
  | loading call entries map => exact h
  | storing call map => exact h
  | checking args pvk => exact List.mem_append_left _ h
  | returned call response => exact List.mem_append_left _ h

variable (B readVk) in
/-- A step of a thread settles nothing and leaves the cell, or it settles a call, as if the call
were run at once. -/
inductive Settles (cell : Option (VkRegistry G)) :
    Option (VkRegistry G) → List RegistryEntry → Prop
  | nothing : Settles cell cell []
  | call (call : RegistryCall) : Settles cell (call.apply B G readVk cell).2
      [(call, (call.apply B G readVk cell).1)]

variable (B readVk) in
/-- What a step of a thread may do after a log. -/
def StepOk (log : List RegistryEntry) (cell : Option (VkRegistry G))
    (next : Thread G × Option (VkRegistry G) × List RegistryEntry) : Prop :=
  next.1.Ok B readVk (log ++ next.2.2) ∧ Settles B readVk cell next.2.1 next.2.2

/-- A step by which a call returns what it would return at once. -/
theorem StepOk.returned {cell c : Option (VkRegistry G)} {call : RegistryCall}
    {response : RegistryResponse} (h : call.apply B G readVk cell = (response, c))
    (log : List RegistryEntry) :
    StepOk B readVk log cell (.returned call response, c, [(call, response)]) := by
  have hsettles : Settles B readVk cell _ _ := .call call
  rw [h] at hsettles
  exact ⟨List.mem_append_right _ (List.mem_singleton_self _), hsettles⟩

theorem Thread.next_initRegistry_spec (entries : List (UInt32 × List UInt8))
    (log : List RegistryEntry) (cell : Option (VkRegistry G)) :
    StepOk B readVk log cell (Thread.next B G readVk cell (.called (.initRegistry entries))) := by
  by_cases hempty : entries = []
  · subst hempty
    exact StepOk.returned rfl log
  · have hnext : Thread.next B G readVk cell (.called (.initRegistry entries)) =
        (.loading (.initRegistry entries) entries (VkRegistry.empty G), cell, []) :=
      if_neg (by simpa using hempty)
    rw [hnext]
    exact ⟨⟨_, rfl, hempty, rfl⟩, .nothing⟩

/-- A verification is settled when it reads the registry. -/
theorem Thread.next_verify_spec (args : VerifyArgs) (log : List RegistryEntry)
    (cell : Option (VkRegistry G)) :
    StepOk B readVk log cell (Thread.next B G readVk cell (.called (.verify args))) := by
  have happly : (RegistryCall.verify args).apply B G readVk cell =
      (.verify (args.verify B G cell), cell) := rfl
  rw [args.verify_eq] at happly
  cases hkey : cell.bind fun r => r args.vkId with
  | none =>
    have hnext : Thread.next B G readVk cell (.called (.verify args)) =
        (.returned (.verify args) (.verify (.error .verifierNotInitialized)), cell,
          [(.verify args, .verify (.error .verifierNotInitialized))]) := by
      simp only [Thread.next, hkey]
    rw [hkey] at happly
    rw [hnext]
    exact StepOk.returned happly log
  | some pvk =>
    have hnext : Thread.next B G readVk cell (.called (.verify args)) =
        (.checking args pvk, cell, [(.verify args, .verify (args.check B G pvk))]) := by
      simp only [Thread.next, hkey]
    rw [hkey] at happly
    rw [hnext]
    exact StepOk.returned happly log

/-- An initialisation that cannot load a key is settled there; else it goes on. -/
theorem Thread.next_loading_spec {log : List RegistryEntry} {call : RegistryCall}
    {entries : List (UInt32 × List UInt8)} {map : VkRegistry G}
    (hok : (Thread.loading call entries map).Ok B readVk log) (cell : Option (VkRegistry G)) :
    StepOk B readVk log cell (Thread.next B G readVk cell (.loading call entries map)) := by
  obtain ⟨all, hall, hne, heq⟩ := hok
  cases entries with
  | nil => exact ⟨⟨all, hall, hne, heq⟩, .nothing⟩
  | cons e entries =>
    obtain ⟨vkId, bytes⟩ := e
    rw [insertEntries_cons] at heq
    cases hload : loadVk G readVk bytes with
    | error e =>
      have hnext : Thread.next B G readVk cell (.loading call ((vkId, bytes) :: entries) map) =
          (.returned call (.init (.error e)), cell, [(call, .init (.error e))]) := by
        simp only [Thread.next, hload]
      rw [hload] at heq
      rw [hnext]
      refine StepOk.returned ?_ log
      rw [RegistryCall.apply_of_entries hall, initWithVkRegistry_of_ne_nil hne, heq]
    | ok pvk =>
      have hnext : Thread.next B G readVk cell (.loading call ((vkId, bytes) :: entries) map) =
          (.loading call entries (map.insert vkId pvk), cell, []) := by
        simp only [Thread.next, hload]
      rw [hload] at heq
      rw [hnext]
      exact ⟨⟨all, hall, hne, heq⟩, .nothing⟩

/-- **What a step of a thread does.** -/
theorem Thread.next_spec {log : List RegistryEntry} {thread : Thread G}
    (hok : thread.Ok B readVk log) (cell : Option (VkRegistry G)) :
    StepOk B readVk log cell (thread.next B G readVk cell) := by
  cases thread with
  | idle => exact ⟨trivial, .nothing⟩
  | called call =>
    cases call with
    | initBytes bytes => exact ⟨⟨_, rfl, by simp, rfl⟩, .nothing⟩
    | initRegistry entries => exact Thread.next_initRegistry_spec entries log cell
    | verify args => exact Thread.next_verify_spec args log cell
  | loading call entries map => exact Thread.next_loading_spec hok cell
  | storing call map =>
    obtain ⟨all, hall, hne, heq⟩ := hok
    refine StepOk.returned ?_ log
    rw [RegistryCall.apply_of_entries hall, initWithVkRegistry_of_ne_nil hne, heq]
  | checking args pvk => exact ⟨List.mem_append_left _ hok, .nothing⟩
  | returned call response => exact ⟨trivial, .nothing⟩

variable (B readVk) in
/-- A run so far. -/
structure Process.Inv (p : Process G) : Prop where
  /-- The cell is what the calls of the log make of it. -/
  cell : p.cell = cellAfter B G readVk p.log
  /-- Each of them answers as if it had been run at once. -/
  sequential : Sequential B G readVk p.log
  threads : ∀ t, (p.threads t).Ok B readVk p.log

theorem Process.Inv.start : (Process.start G).Inv B readVk where
  cell := rfl
  sequential l₁ call response l₂ h := by simp [Process.start] at h
  threads _ := trivial

/-- **The step lemma.** -/
theorem Process.Inv.move {p : Process G} (h : p.Inv B readVk) (m : Move) :
    (p.move B G readVk m).Inv B readVk := by
  cases m with
  | call t call =>
    unfold Process.move
    simp only
    split
    · exact ⟨h.cell, h.sequential, (Function.forall_update_iff p.threads fun _ thread =>
        thread.Ok B readVk p.log).mpr ⟨trivial, fun u _ => h.threads u⟩⟩
    · exact h
  | step t =>
    obtain ⟨hok, hsettles⟩ := Thread.next_spec (h.threads t) p.cell
    unfold Process.move
    simp only
    generalize (p.threads t).next B G readVk p.cell = next at hok hsettles
    obtain ⟨thread, cell, entries⟩ := next
    refine ⟨?_, ?_, ?_⟩
    · cases hsettles with
      | nothing => simpa using h.cell
      | call call => simp [← h.cell]
    · cases hsettles with
      | nothing => simpa using h.sequential
      | call call =>
        have hgrown := h.sequential.concat call
        rwa [← h.cell] at hgrown
    · exact (Function.forall_update_iff p.threads fun _ thread =>
        thread.Ok B readVk (p.log ++ entries)).mpr
          ⟨hok, fun u _ => (h.threads u).append entries⟩

/-- **The run lemma.** -/
theorem Process.Inv.run {p : Process G} (h : p.Inv B readVk)
    (moves : List Move) : (p.run B G readVk moves).Inv B readVk := by
  induction moves generalizing p with
  | nil => exact h
  | cons m moves ih => exact ih (h.move m)

/-! ## What a log makes of the registry -/

/-- An initialisation that succeeded. -/
def RegistryEntry.succeeded (e : RegistryEntry) : Bool :=
  match e.2 with
  | .init (.ok ()) => true
  | _ => false

variable (B readVk) in
/-- **What a call can do at once.** -/
theorem RegistryCall.apply_cases (call : RegistryCall) (cell : Option (VkRegistry G)) :
    (∃ args, call = .verify args ∧
      call.apply B G readVk cell = (.verify (args.verify B G cell), cell)) ∨
    (∃ all, call.entries = some all ∧ WellFormed G readVk all ∧ cell = none ∧
      call.apply B G readVk cell = (.init (.ok ()), some (registryOf G readVk all))) ∨
    ∃ all e, call.entries = some all ∧ call.apply B G readVk cell = (.init (.error e), cell) ∧
      (WellFormed G readVk all → cell.isSome ∧ e = .alreadyInitialized) := by
  cases hentries : call.entries with
  | none =>
    cases call with
    | verify args => exact .inl ⟨args, rfl, rfl⟩
    | initBytes bytes => cases hentries
    | initRegistry entries => cases hentries
  | some all =>
    have happly : call.apply B G readVk cell = _ := RegistryCall.apply_of_entries hentries cell
    rcases initWithVkRegistry_cases readVk all cell with
      ⟨hmalformed, e, -, heq⟩ | ⟨hformed, hcell, heq⟩ | ⟨-, hcell, heq⟩ <;> rw [heq] at happly
    · exact .inr (.inr ⟨all, e, rfl, happly, fun h => absurd h hmalformed⟩)
    · exact .inr (.inl ⟨all, rfl, hformed, hcell, happly⟩)
    · exact .inr (.inr ⟨all, _, rfl, happly, fun _ => ⟨hcell, rfl⟩⟩)

variable (readVk) in
/-- The registry is not there before an initialisation of the log has succeeded, and the one of
its entries afterwards. -/
inductive RegistrySet (log : List RegistryEntry) : Option (VkRegistry G) → Prop
  | unset (h : log.filter RegistryEntry.succeeded = []) : RegistrySet log none
  | set (call : RegistryCall) (all : List (UInt32 × List UInt8))
      (h : log.filter RegistryEntry.succeeded = [(call, .init (.ok ()))])
      (hall : call.entries = some all) (hformed : WellFormed G readVk all) :
      RegistrySet log (some (registryOf G readVk all))

/-- Any other call leaves the registry. -/
theorem RegistrySet.concat {log : List RegistryEntry} {cell : Option (VkRegistry G)}
    (h : RegistrySet readVk log cell) {e : RegistryEntry} (he : e.succeeded = false) :
    RegistrySet readVk (log ++ [e]) cell := by
  have hfilter : (log ++ [e]).filter RegistryEntry.succeeded =
      log.filter RegistryEntry.succeeded := by
    simp [he]
  cases h with
  | unset h => exact .unset (hfilter.trans h)
  | set call all h hall hformed => exact .set call all (hfilter.trans h) hall hformed

theorem RegistrySet.length_le_one {log : List RegistryEntry} {cell : Option (VkRegistry G)}
    (h : RegistrySet readVk log cell) : (log.filter RegistryEntry.succeeded).length ≤ 1 := by
  cases h with
  | unset h => simp [h]
  | set call all h => simp [h]

theorem Sequential.registrySet {log : List RegistryEntry} (h : Sequential B G readVk log) :
    RegistrySet readVk log (cellAfter B G readVk log) := by
  induction log using List.reverseRecOn with
  | nil => exact .unset rfl
  | append_singleton log e ih =>
    obtain ⟨call, response⟩ := e
    have hset := ih h.left
    have hresponse := h log call response [] rfl
    rw [cellAfter_concat]
    rcases call.apply_cases B readVk (cellAfter B G readVk log) with
      ⟨args, -, happly⟩ | ⟨all, hall, hformed, hcell, happly⟩ | ⟨all, e, -, happly, -⟩ <;>
      rw [happly] at hresponse ⊢
    · exact hset.concat (hresponse ▸ rfl)
    · rw [hcell] at hset
      cases hset with
      | unset hnone =>
        refine .set call all ?_ hall hformed
        rw [List.filter_append, hnone, hresponse]
        rfl
    · exact hset.concat (hresponse ▸ rfl)

/-- After an initialisation has succeeded the registry is the one of its entries. -/
theorem Sequential.cellAfter_of_mem {log : List RegistryEntry} (h : Sequential B G readVk log)
    {call : RegistryCall} (hmem : (call, .init (.ok ())) ∈ log) :
    ∃ all, call.entries = some all ∧ WellFormed G readVk all ∧
      cellAfter B G readVk log = some (registryOf G readVk all) := by
  have hfilter : (call, .init (.ok ())) ∈ log.filter RegistryEntry.succeeded :=
    List.mem_filter.mpr ⟨hmem, rfl⟩
  have hset := h.registrySet
  generalize cellAfter B G readVk log = cell at hset
  cases hset with
  | unset hnone =>
    rw [hnone] at hfilter
    cases hfilter
  | set call' all hone hall hformed =>
    rw [hone, List.mem_singleton, Prod.mk.injEq] at hfilter
    obtain ⟨rfl, -⟩ := hfilter
    exact ⟨all, hall, hformed, rfl⟩

/-- The same for an initialisation whose entries are known. -/
theorem Sequential.cellAfter_of_entries {log : List RegistryEntry} (h : Sequential B G readVk log)
    {call : RegistryCall} {all : List (UInt32 × List UInt8)} (hall : call.entries = some all)
    (hmem : (call, .init (.ok ())) ∈ log) :
    WellFormed G readVk all ∧ cellAfter B G readVk log = some (registryOf G readVk all) := by
  obtain ⟨all', hall', hformed, hcell⟩ := h.cellAfter_of_mem hmem
  obtain rfl := Option.some.inj (hall.symm.trans hall')
  exact ⟨hformed, hcell⟩

/-- Before, it is not there. -/
theorem Sequential.cellAfter_of_not_mem {log : List RegistryEntry} (h : Sequential B G readVk log)
    (hnot : ∀ call, (call, .init (.ok ())) ∉ log) : cellAfter B G readVk log = none := by
  have hset := h.registrySet
  generalize cellAfter B G readVk log = cell at hset
  cases hset with
  | unset hnone => rfl
  | set call all hone hall hformed =>
    refine absurd ?_ (hnot call)
    exact List.mem_of_mem_filter (hone ▸ List.mem_singleton_self _)

/-- An entry of a log answers as its call would at once after the entries before it. -/
theorem Sequential.split {l₁ l₂ : List RegistryEntry} {call : RegistryCall}
    {response : RegistryResponse} (h : Sequential B G readVk (l₁ ++ (call, response) :: l₂)) :
    Sequential B G readVk l₁ ∧ response = (call.apply B G readVk (cellAfter B G readVk l₁)).1 :=
  ⟨h.left, h l₁ call response l₂ rfl⟩

/-- A verification answers as it would at once after the entries before it. -/
theorem Sequential.verify_eq {l₁ l₂ : List RegistryEntry} {args : VerifyArgs}
    {r : Except Error VerifyResult}
    (h : Sequential B G readVk (l₁ ++ (.verify args, .verify r) :: l₂)) :
    r = args.verify B G (cellAfter B G readVk l₁) :=
  RegistryResponse.verify.inj h.split.2

/-- A verification after an initialisation that succeeded uses the keys of its entries. -/
theorem Sequential.verify_of_mem {l₁ l₂ : List RegistryEntry} {args : VerifyArgs}
    {r : Except Error VerifyResult}
    (h : Sequential B G readVk (l₁ ++ (.verify args, .verify r) :: l₂)) {call : RegistryCall}
    {all : List (UInt32 × List UInt8)} (hall : call.entries = some all)
    (hmem : (call, .init (.ok ())) ∈ l₁) :
    r = match registryOf G readVk all args.vkId with
      | none => .error .verifierNotInitialized
      | some pvk => args.check B G pvk := by
  obtain ⟨-, hcell⟩ := h.left.cellAfter_of_entries hall hmem
  have hr := h.verify_eq
  rw [hcell] at hr
  exact hr

/-- A verification finds no key when no initialisation has succeeded before it, or the one that
has does not register its id, and only then. -/
theorem Sequential.verify_notInitialized_iff {l₁ l₂ : List RegistryEntry} {args : VerifyArgs}
    {r : Except Error VerifyResult}
    (h : Sequential B G readVk (l₁ ++ (.verify args, .verify r) :: l₂)) :
    r = .error .verifierNotInitialized ↔
      (∀ call, (call, .init (.ok ())) ∉ l₁) ∨
      ∃ call all, (call, .init (.ok ())) ∈ l₁ ∧ call.entries = some all ∧
        args.vkId ∉ all.map Prod.fst := by
  by_cases hsucceeded : ∀ call, (call, .init (.ok ())) ∉ l₁
  · rw [h.verify_eq, h.left.cellAfter_of_not_mem hsucceeded]
    exact ⟨fun _ => .inl hsucceeded, fun _ => rfl⟩
  obtain ⟨call, hcall⟩ := not_forall_not.mp hsucceeded
  obtain ⟨all, hall, hformed, -⟩ := h.left.cellAfter_of_mem hcall
  constructor
  · intro hnot
    rw [h.verify_of_mem hall hcall] at hnot
    refine .inr ⟨call, all, hcall, hall, (registryOf_eq_none readVk hformed args.vkId).mp ?_⟩
    cases hkey : registryOf G readVk all args.vkId with
    | none => rfl
    | some pvk =>
      rw [hkey] at hnot
      exact absurd hnot (args.check_ne B G pvk)
  · rintro (hnone | ⟨call', all', hcall', hall', hid⟩)
    · exact absurd hcall (hnone call)
    · obtain ⟨hformed', -⟩ := h.left.cellAfter_of_entries hall' hcall'
      rw [h.verify_of_mem hall' hcall', (registryOf_eq_none readVk hformed' args.vkId).mpr hid]

/-- An initialisation with well-formed entries after one that succeeded is told so. -/
theorem Sequential.alreadyInitialized {l₁ l₂ : List RegistryEntry} {call call' : RegistryCall}
    {r : Except Error Unit}
    (h : Sequential B G readVk (l₁ ++ (call, .init r) :: l₂)) {all : List (UInt32 × List UInt8)}
    (hall : call.entries = some all) (hformed : WellFormed G readVk all)
    (hmem : (call', .init (.ok ())) ∈ l₁) : r = .error .alreadyInitialized := by
  obtain ⟨hbefore, hresponse⟩ := h.split
  obtain ⟨all', -, -, hcell⟩ := hbefore.cellAfter_of_mem hmem
  rw [hcell] at hresponse
  rcases call.apply_cases B readVk (some (registryOf G readVk all')) with
    ⟨args, rfl, -⟩ | ⟨all'', -, -, hnone, -⟩ | ⟨all'', e, hall'', happly, he⟩
  · cases hall
  · cases hnone
  · obtain rfl := Option.some.inj (hall.symm.trans hall'')
    rw [happly] at hresponse
    rw [RegistryResponse.init.inj hresponse, (he hformed).2]

/-- A move leaves the registry, unless it sets an empty one and an initialisation succeeds. -/
theorem Process.Inv.move_cell {p : Process G} (h : p.Inv B readVk) (m : Move) :
    (p.move B G readVk m).cell = p.cell ∨
      p.cell = none ∧ ∃ call, (p.move B G readVk m).log = p.log ++ [(call, .init (.ok ()))] := by
  cases m with
  | call t call =>
    unfold Process.move
    simp only
    split <;> exact .inl rfl
  | step t =>
    obtain ⟨-, hsettles⟩ := Thread.next_spec (h.threads t) p.cell
    unfold Process.move
    simp only
    generalize (p.threads t).next B G readVk p.cell = next at hsettles
    obtain ⟨thread, cell, entries⟩ := next
    cases hsettles with
    | nothing => exact .inl rfl
    | call call =>
      rcases call.apply_cases B readVk p.cell with
        ⟨args, -, happly⟩ | ⟨all, -, -, hcell, happly⟩ | ⟨all, e, -, happly, -⟩ <;> rw [happly]
      · exact .inl rfl
      · exact .inr ⟨hcell, call, rfl⟩
      · exact .inl rfl

/-- Once set, the registry never changes. -/
theorem Process.Inv.run_cell {p : Process G} (h : p.Inv B readVk) {r : VkRegistry G}
    (hcell : p.cell = some r) (moves : List Move) : (p.run B G readVk moves).cell = some r := by
  induction moves generalizing p with
  | nil => exact hcell
  | cons m moves ih =>
    refine ih (h.move m) ?_
    rcases h.move_cell m with heq | ⟨hnone, -⟩
    · exact heq.trans hcell
    · rw [hnone] at hcell
      cases hcell

/-! ## What holds of all runs -/

variable (B G readVk)

/-- **The registry's state machine.** In any interleaving of calls: at most one initialisation
succeeds; a step by which none succeeds leaves the registry; once set it never changes; it is then
the one of the entries of the initialisation that succeeded, the last entry with an id counting,
and later verifications use its keys; a verification finds no key exactly when none has succeeded
before it or its id is not among those registered; a well-formed initialisation after a successful
one is told so; and what a thread gets back is what the log has. -/
theorem registry_state_machine (moves : List Move) :
    let p := (Process.start G).run B G readVk moves
    (p.log.filter RegistryEntry.succeeded).length ≤ 1 ∧
    (∀ m, (∀ call, (p.move B G readVk m).log ≠ p.log ++ [(call, .init (.ok ()))]) →
      (p.move B G readVk m).cell = p.cell) ∧
    (∀ r more, p.cell = some r → (p.run B G readVk more).cell = some r) ∧
    (∀ l₁ call all l₂, p.log = l₁ ++ (call, .init (.ok ())) :: l₂ → call.entries = some all →
      p.cell = some (registryOf G readVk all) ∧
      ∀ args r, (.verify args, .verify r) ∈ l₂ →
        r = match registryOf G readVk all args.vkId with
          | none => .error .verifierNotInitialized
          | some pvk => args.check B G pvk) ∧
    (∀ l₁ args r l₂, p.log = l₁ ++ (.verify args, .verify r) :: l₂ →
      (r = .error .verifierNotInitialized ↔
        (∀ call, (call, .init (.ok ())) ∉ l₁) ∨
        ∃ call all, (call, .init (.ok ())) ∈ l₁ ∧ call.entries = some all ∧
          args.vkId ∉ all.map Prod.fst)) ∧
    (∀ l₁ call all r l₂, p.log = l₁ ++ (call, .init r) :: l₂ → call.entries = some all →
      WellFormed G readVk all → (∃ call', (call', .init (.ok ())) ∈ l₁) →
      r = .error .alreadyInitialized) ∧
    ∀ t call response, p.threads t = .returned call response → (call, response) ∈ p.log := by
  intro p
  have hinv : p.Inv B readVk := Process.Inv.start.run moves
  have hlog := hinv.sequential
  refine ⟨hlog.registrySet.length_le_one, ?_, ?_, ?_, ?_, ?_, ?_⟩
  · intro m hnot
    rcases hinv.move_cell m with heq | ⟨-, call, hcall⟩
    · exact heq
    · exact absurd hcall (hnot call)
  · intro r more hcell
    exact hinv.run_cell hcell more
  · intro l₁ call all l₂ hsplit hall
    have hmem : (call, .init (.ok ())) ∈ p.log := hsplit ▸ List.mem_append_right _ List.mem_cons_self
    refine ⟨hinv.cell.trans (hlog.cellAfter_of_entries hall hmem).2, ?_⟩
    intro args r hr
    obtain ⟨k₁, k₂, rfl⟩ := List.append_of_mem hr
    -- the initialisation is among the calls before the verification
    rw [hsplit, ← List.cons_append, ← List.append_assoc] at hlog
    exact hlog.verify_of_mem hall (List.mem_append_right _ List.mem_cons_self)
  · intro l₁ args r l₂ hsplit
    rw [hsplit] at hlog
    exact hlog.verify_notInitialized_iff
  · intro l₁ call all r l₂ hsplit hall hformed hsucceeded
    obtain ⟨call', hcall'⟩ := hsucceeded
    rw [hsplit] at hlog
    exact hlog.alreadyInitialized hall hformed hcall'
  · intro t call response ht
    have hok := hinv.threads t
    rw [ht] at hok
    exact hok

end

/-! ### Two initialisations and a verification at once -/

/-- A decoder for which every key but the empty one is well-formed. -/
def sampleReadVk (bytes : List UInt8) : Option (Reference.groth16 Reference.blake2s).VerifyingKey :=
  if bytes.isEmpty then none else some ()

private theorem length_zeros : (List.replicate 32 (0 : UInt8)).length = 32 := List.length_replicate

/-- A verification under id 7. -/
def sampleArgs : VerifyArgs where
  proofBytes := []
  direction := true
  cutoffDays := 10000
  rpHash := ⟨List.replicate 32 0, length_zeros⟩
  issuerVkBytes := ⟨List.replicate 32 0, length_zeros⟩
  credNullifier := ⟨List.replicate 32 0, length_zeros⟩
  vkId := 7

/-- Two threads initialise and a third verifies, before and after the first of them has set the
registry. -/
def sampleMoves : List Move :=
  [.call 0 (.initBytes [1]), .call 1 (.initRegistry [(7, [1]), (7, [2])]), .step 0, .step 1,
    .call 2 (.verify sampleArgs), .step 2, .step 2, .step 1, .step 0, .step 1, .step 0, .step 1,
    .step 1, .step 0, .call 2 (.verify sampleArgs), .step 2]

theorem registry_state_machine_sample :
    let p := (Process.start _).run (Reference.bellman Reference.blake2s)
      (Reference.groth16 Reference.blake2s) sampleReadVk sampleMoves
    p.log.map Prod.fst = [.verify sampleArgs, .initRegistry [(7, [1]), (7, [2])], .initBytes [1],
        .verify sampleArgs] ∧
      p.cell = some (registryOf _ sampleReadVk [(7, [1]), (7, [2])]) := by
  let p := (Process.start _).run (Reference.bellman Reference.blake2s)
    (Reference.groth16 Reference.blake2s) sampleReadVk sampleMoves
  have hlog : p.log = [(.verify sampleArgs, .verify (.error .verifierNotInitialized)),
      (.initRegistry [(7, [1]), (7, [2])], .init (.ok ())),
      (.initBytes [1], .init (.error .alreadyInitialized)),
      (.verify sampleArgs, .verify (sampleArgs.check (Reference.bellman Reference.blake2s)
        (Reference.groth16 Reference.blake2s) ()))] := rfl
  obtain ⟨-, -, -, hset, -⟩ := registry_state_machine (Reference.bellman Reference.blake2s)
    (Reference.groth16 Reference.blake2s) sampleReadVk sampleMoves
  exact ⟨congrArg (List.map Prod.fst) hlog, (hset [_] _ _ _ hlog rfl).1⟩

end ProviiCrypto
