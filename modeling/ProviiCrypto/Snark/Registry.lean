import ProviiCrypto.Snark.Verifier

/-!
# The registry of verifying keys

`VK_REGISTRY` is a cell that is set at most once. The two functions that initialise it load every
key first and set the cell last (`initWithVkRegistry_cases` says all that can happen), so that the
registry is either not there or the one of a whole list of entries, in which the last entry with an
id counts (`registryOf`).
-/

namespace ProviiCrypto

open Number

/-- `OnceCell::set`: the value comes back when the cell is not empty. -/
def onceCellSet {α : Type} (cell : Option α) (value : α) : Except α Unit × Option α :=
  match cell with
  | none => (.ok (), some value)
  | some old => (.error value, some old)

section

variable {H : Blake2s} (B : Bellman H) (G : Groth16)
  (readVk : List UInt8 → Option G.VerifyingKey)

/-- `load_vk`, with what `VerifyingKey::read` makes of the bytes. -/
def loadVk (bytes : List UInt8) : Except Error G.PreparedVerifyingKey :=
  match readVk bytes with
  | none => .error .invalidFormat
  | some vk => .ok (G.prepareVerifyingKey vk)

/-- `HashMap::new`. -/
def VkRegistry.empty : VkRegistry G := fun _ => none

/-- `HashMap::insert`. -/
def VkRegistry.insert {G : Groth16} (map : VkRegistry G) (vkId : UInt32)
    (pvk : G.PreparedVerifyingKey) : VkRegistry G := Function.update map vkId (some pvk)

/-- The loop of `init_with_vk_registry`. -/
def insertEntries : List (UInt32 × List UInt8) → VkRegistry G → Except Error (VkRegistry G)
  | [], map => .ok map
  | (vkId, bytes) :: entries, map =>
    match loadVk G readVk bytes with
    | .error e => .error e
    | .ok pvk => insertEntries entries (map.insert vkId pvk)

/-- `VK_REGISTRY.set(map).map_err(|_| Error::AlreadyInitialized)`. -/
def setRegistry {G : Groth16} (map : VkRegistry G) (cell : Option (VkRegistry G)) :
    Except Error Unit × Option (VkRegistry G) :=
  match onceCellSet cell map with
  | (.ok (), cell) => (.ok (), cell)
  | (.error _, cell) => (.error .alreadyInitialized, cell)

/-- `init_with_vk_bytes`, with what `VK_REGISTRY` holds before and after. -/
def initWithVkBytes (bytes : List UInt8) (cell : Option (VkRegistry G)) :
    Except Error Unit × Option (VkRegistry G) :=
  match loadVk G readVk bytes with
  | .error e => (.error e, cell)
  | .ok pvk => setRegistry ((VkRegistry.empty G).insert 0 pvk) cell

/-- `init_with_vk_registry`, with what `VK_REGISTRY` holds before and after. -/
def initWithVkRegistry (entries : List (UInt32 × List UInt8)) (cell : Option (VkRegistry G)) :
    Except Error Unit × Option (VkRegistry G) :=
  if entries.isEmpty then (.error .invalidInput, cell)
  else
    match insertEntries G readVk entries (VkRegistry.empty G) with
    | .error e => (.error e, cell)
    | .ok map => setRegistry map cell

/-! ## What an initialisation does -/

/-- Entries that make a registry: at least one, and every key decodes. -/
def WellFormed (entries : List (UInt32 × List UInt8)) : Prop :=
  entries ≠ [] ∧ ∀ e ∈ entries, (readVk e.2).isSome

/-- The key of the last entry with an id. -/
def registryOf (entries : List (UInt32 × List UInt8)) : VkRegistry G := fun vkId =>
  (entries.reverse.find? fun e => e.1 == vkId).bind fun e =>
    (readVk e.2).map G.prepareVerifyingKey

variable {G}

theorem insertEntries_cons (vkId : UInt32) (bytes : List UInt8)
    (entries : List (UInt32 × List UInt8)) (map : VkRegistry G) :
    insertEntries G readVk ((vkId, bytes) :: entries) map =
      match loadVk G readVk bytes with
      | .error e => .error e
      | .ok pvk => insertEntries G readVk entries (map.insert vkId pvk) := rfl

/-- The ids of a registry are those of its entries. -/
theorem registryOf_eq_none {entries : List (UInt32 × List UInt8)} (h : WellFormed G readVk entries)
    (vkId : UInt32) : registryOf G readVk entries vkId = none ↔ vkId ∉ entries.map Prod.fst := by
  unfold registryOf
  cases hfind : entries.reverse.find? fun e => e.1 == vkId with
  | none =>
    simp only [Option.bind_none, true_iff, List.mem_map, not_exists, not_and]
    intro e he
    simpa using List.find?_eq_none.mp hfind e (List.mem_reverse.mpr he)
  | some e =>
    have he : e ∈ entries := List.mem_reverse.mp (List.mem_of_find?_eq_some hfind)
    obtain ⟨vk, hread⟩ := Option.isSome_iff_exists.mp (h.2 e he)
    have hid : e.1 = vkId := by simpa using List.find?_some hfind
    simp only [Option.bind_some, hread, Option.map_some, reduceCtorEq, false_iff, not_not]
    exact hid ▸ List.mem_map_of_mem he

/-- The loop stops at the first entry that does not decode. -/
theorem insertEntries_of_not_isSome {entries : List (UInt32 × List UInt8)}
    (h : ¬ ∀ e ∈ entries, (readVk e.2).isSome) (map : VkRegistry G) :
    insertEntries G readVk entries map = .error .invalidFormat := by
  induction entries generalizing map with
  | nil => exact absurd (by simp) h
  | cons e entries ih =>
    obtain ⟨vkId, bytes⟩ := e
    unfold insertEntries loadVk
    cases hread : readVk bytes with
    | none => rfl
    | some vk =>
      refine ih ?_ _
      intro hall
      refine h fun e he => ?_
      rcases List.mem_cons.mp he with rfl | he
      · rw [hread]
        rfl
      · exact hall e he

/-- Otherwise the later entries overwrite the earlier ones. -/
theorem insertEntries_of_isSome {entries : List (UInt32 × List UInt8)}
    (h : ∀ e ∈ entries, (readVk e.2).isSome) (map : VkRegistry G) :
    insertEntries G readVk entries map =
      .ok fun vkId => (registryOf G readVk entries vkId).or (map vkId) := by
  induction entries generalizing map with
  | nil => rfl
  | cons e entries ih =>
    obtain ⟨vkId, bytes⟩ := e
    obtain ⟨vk, hread⟩ := Option.isSome_iff_exists.mp (h (vkId, bytes) List.mem_cons_self)
    unfold insertEntries loadVk
    simp only [hread]
    rw [ih fun e he => h e (List.mem_cons_of_mem _ he)]
    congr 1
    funext id
    unfold registryOf VkRegistry.insert
    rw [List.reverse_cons, List.find?_append]
    cases hfind : entries.reverse.find? fun e => e.1 == id with
    | some e =>
      obtain ⟨vk', hread'⟩ := Option.isSome_iff_exists.mp (h e (List.mem_cons_of_mem _
        (List.mem_reverse.mp (List.mem_of_find?_eq_some hfind))))
      simp [hread']
    | none =>
      by_cases hid : vkId = id
      · subst hid
        simp [hread]
      · simp [hid, Function.update_of_ne (Ne.symm hid)]

/-- The single key is an entry under id 0. -/
theorem initWithVkBytes_eq (bytes : List UInt8) (cell : Option (VkRegistry G)) :
    initWithVkBytes G readVk bytes cell = initWithVkRegistry G readVk [(0, bytes)] cell := by
  unfold initWithVkBytes initWithVkRegistry insertEntries insertEntries
  cases loadVk G readVk bytes <;> rfl

/-- **All that an initialisation can do**: refuse entries that are malformed, set an empty cell to
the registry of its entries, or find the cell set. -/
theorem initWithVkRegistry_cases (entries : List (UInt32 × List UInt8))
    (cell : Option (VkRegistry G)) :
    (¬ WellFormed G readVk entries ∧ ∃ e, e ≠ .alreadyInitialized ∧
      initWithVkRegistry G readVk entries cell = (.error e, cell)) ∨
    (WellFormed G readVk entries ∧ cell = none ∧
      initWithVkRegistry G readVk entries cell = (.ok (), some (registryOf G readVk entries))) ∨
    (WellFormed G readVk entries ∧ cell.isSome ∧
      initWithVkRegistry G readVk entries cell = (.error .alreadyInitialized, cell)) := by
  unfold initWithVkRegistry WellFormed
  by_cases hempty : entries = []
  · subst hempty
    exact .inl ⟨by simp, _, by decide, rfl⟩
  rw [if_neg (by simpa using hempty)]
  by_cases hall : ∀ e ∈ entries, (readVk e.2).isSome
  · rw [insertEntries_of_isSome readVk hall]
    simp only [VkRegistry.empty, Option.or_none]
    cases cell with
    | none => exact .inr (.inl ⟨⟨hempty, hall⟩, rfl, rfl⟩)
    | some old => exact .inr (.inr ⟨⟨hempty, hall⟩, rfl, rfl⟩)
  · rw [insertEntries_of_not_isSome readVk hall]
    exact .inl ⟨fun h => hall h.2, _, by decide, rfl⟩

end

end ProviiCrypto
