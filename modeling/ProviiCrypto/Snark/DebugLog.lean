import ProviiCrypto.Coding.Hex
import ProviiCrypto.Snark.Prover

/-!
# The debug log

One log serves all threads of the process, and the text of it goes out with a proof
(`full_debug_log`) when the configured level is not `None`. `log_detailed_inputs` and
`log_witness_details` write to it about a witness, whose values are not to be in it.

* `run_eq`: after any interleaving of the threads' calls the log holds the messages of the configured
  level since the last session began, whoever began it and whoever wrote them.
* `recorded_detailed_iff`, `recorded_details_iff`: what two witnesses must share to be logged alike,
  level by level. Neither the date of birth, nor the blinding factor, nor the signature, nor the dates
  of issue and expiry are among it. Whether the date of birth passes the cutoff is, at every level but
  `None`, and when the prover misses an assignment, whether the clock lies between the two dates.
* `debug_log`: these for whole runs. Two witnesses are told apart by some run of all threads exactly
  when they do not share it.
-/

namespace ProviiCrypto

open Number

/-! ## The level -/

/-- `level as u8`. -/
def DebugLevel.toNat : DebugLevel → ℕ
  | .none => 0
  | .basic => 1
  | .verbose => 2
  | .extreme => 3

/-- The level that a value of `PROVER_DEBUG_LEVEL` names, in letters of either case. -/
def DebugLevel.ofEnv (s : String) : Option DebugLevel :=
  match s.toLower with
  | "none" => some .none
  | "basic" => some .basic
  | "verbose" => some .verbose
  | "extreme" => some .extreme
  | _ => none

/-- `RuntimeConfig::new`, for a build with debug assertions or without, and the value of
`PROVER_DEBUG_LEVEL` if there is one. -/
def RuntimeConfig.new (debugAssertions : Bool) (var : Option String) : RuntimeConfig where
  debugLevel := if debugAssertions then (var.bind DebugLevel.ofEnv).getD .basic else .none

/-! ## The logger -/

/-- `DebugLogger`, its instants in nanoseconds. -/
structure DebugLogger where
  logs : List String
  startTime : Option ℕ
  deriving DecidableEq

/-- A message with its level. -/
structure LogMessage where
  level : DebugLevel
  msg : String
  deriving DecidableEq

/-- The line of a message: the milliseconds since the session began, in six columns or more. -/
def logEntry (startTime : Option ℕ) (now : ℕ) (msg : String) : String :=
  let timestamp := match startTime with
    | some t => (now - t) / 1000000
    | none => 0
  "[" ++ String.ofList (List.leftpad 6 ' ' (toString timestamp).toList) ++ "ms] " ++ msg

namespace DebugLogger

/-- `DebugLogger::new`. -/
def new : DebugLogger := ⟨[], none⟩

/-- `DebugLogger::start_session`. -/
def startSession (now : ℕ) (_ : DebugLogger) : DebugLogger := ⟨[], some now⟩

/-- `DebugLogger::dump_all`. -/
def dumpAll (logger : DebugLogger) : String := "\n".intercalate logger.logs

/-- `DebugLogger::log`. -/
def log (config : RuntimeConfig) (now : ℕ) (m : LogMessage) (logger : DebugLogger) : DebugLogger :=
  if m.level.toNat > config.debugLevel.toNat then logger
  else { logger with logs := logger.logs ++ [logEntry logger.startTime now m.msg] }

end DebugLogger

/-- What a thread does to `DEBUG_LOGGER`, at an instant: it begins a session, it writes a message
(`debug_log!`), or it panics with the lock in hand. -/
inductive LogEvent where
  | startSession (now : ℕ)
  | log (now : ℕ) (m : LogMessage)
  | panic
  deriving DecidableEq

/-- `DEBUG_LOGGER`: the logger behind its lock, `none` when the lock is poisoned. Then nothing is
written any more. -/
def LogEvent.apply (config : RuntimeConfig) (state : Option DebugLogger) :
    LogEvent → Option DebugLogger
  | .startSession now => state.map (.startSession now)
  | .log now m => state.map (.log config now m)
  | .panic => none

/-- The calls of all threads, in the order in which they get the lock. -/
def runLog (config : RuntimeConfig) (events : List LogEvent) (state : Option DebugLogger) :
    Option DebugLogger :=
  events.foldl (LogEvent.apply config) state

/-- `full_debug_log`: `unwrap_or_default` of what is dumped. -/
def fullDebugLog (state : Option DebugLogger) : String := (state.map DebugLogger.dumpAll).getD ""

/-- The messages that the configured level records. -/
def recorded (config : RuntimeConfig) (messages : List LogMessage) : List LogMessage :=
  messages.filter fun m => m.level.toNat ≤ config.debugLevel.toNat

/-- The messages of the events, with their instants, that the configured level records. -/
def recordedEvents (config : RuntimeConfig) (events : List LogEvent) : List (ℕ × LogMessage) :=
  events.filterMap fun
    | .log now m => if m.level.toNat ≤ config.debugLevel.toNat then some (now, m) else none
    | _ => none

/-! ## What the prover writes -/

/-- `i32::saturating_sub`. -/
def int32SaturatingSub (x y : Int32) : Int32 :=
  Int32.ofInt (max (-2 ^ 31) (min (2 ^ 31 - 1) (x.toInt - y.toInt)))

/-- The day of an instant in seconds, `as i32`. -/
def epochDays (now : UInt64) : Int32 := (now / 86400).toUInt32.toInt32

/-- The messages of `log_detailed_inputs` that come before the witness. -/
def publicMessages (pub : AgePublic) (now : UInt64) : List LogMessage :=
  [⟨.verbose, "=== PUBLIC INPUTS ==="⟩,
    ⟨.verbose, "Cutoff days: " ++ toString pub.cutoffDays.toInt ++ " (today epoch: " ++
      toString (epochDays now).toInt ++ ")"⟩] ++
  (if pub.cutoffDays < 10000 then
    [⟨.basic, "⚠️  WARNING: cutoff_days=" ++ toString pub.cutoffDays.toInt ++
      " looks like a DURATION not an EPOCH!"⟩,
     ⟨.basic, "   Should be approximately " ++
      toString (int32SaturatingSub (epochDays now) 6570).toInt ++ " for 18+ today"⟩]
  else []) ++
  [⟨.verbose, "RP hash: " ++ hexEncode pub.rpHash.1⟩,
    ⟨.verbose, "Issuer VK bytes: " ++ hexEncode pub.issuerVkBytes.1⟩,
    ⟨.verbose, "Cred nullifier: " ++ hexEncode pub.credNullifier.1⟩,
    ⟨.verbose, "=== WITNESS (redacted) ==="⟩,
    ⟨.verbose, "DOB days: [REDACTED]"⟩,
    ⟨.verbose, "=== AGE CHECK PREVIEW ==="⟩]

/-- The preview of the age check, which is the one of `AgeDirection::Over` whatever the direction. -/
def previewMessages (pub : AgePublic) (witness : AgeWitness) : List LogMessage :=
  if pub.cutoffDays ≥ witness.dobDays then
    [⟨.verbose, "Age check: PASS (user is old enough)"⟩]
  else
    [⟨.basic, "Age check: FAIL (user does not meet threshold)"⟩,
      ⟨.basic, "   This causes 'age_threshold_check/no_final_borrow' error"⟩]

/-- The messages about the fields of the witness. -/
def fieldMessages (witness : AgeWitness) : List LogMessage :=
  [⟨.verbose, "Version: " ++ toString witness.v.toNat⟩,
    ⟨.verbose, "IAT: [REDACTED]"⟩,
    ⟨.verbose, "EXP: [REDACTED]"⟩,
    ⟨.verbose, "Kid length: " ++ toString witness.kid.length⟩,
    ⟨.verbose, "Schema length: " ++ toString witness.schema.length⟩,
    ⟨.verbose, "R bits length: " ++ toString witness.rBits.length⟩,
    ⟨.verbose, "R bits: [REDACTED; " ++ toString witness.rBits.length ++ " bits]"⟩,
    ⟨.verbose, "Sig RJ bytes length: " ++ toString witness.sigRjBytes.length⟩,
    ⟨.verbose, "Issuer VK bytes: " ++ hexEncode witness.issuerVkBytes.1⟩,
    ⟨.verbose, "C bytes: " ++ hexEncode witness.cBytes.1⟩]

/-- The messages of the level `Extreme`. -/
def extremeMessages (witness : AgeWitness) : List LogMessage :=
  [⟨.extreme, "R bits: [REDACTED; " ++ toString witness.rBits.length ++ " bits]"⟩,
    ⟨.extreme, "Sig bytes: [REDACTED; " ++ toString witness.sigRjBytes.length ++ " bytes]"⟩]

/-- `log_detailed_inputs`, at an instant in seconds. -/
def logDetailedInputs (config : RuntimeConfig) (pub : AgePublic) (witness : AgeWitness)
    (now : UInt64) : List LogMessage :=
  if config.debugLevel = .none then []
  else
    publicMessages pub now ++ previewMessages pub witness ++ fieldMessages witness ++
      if config.debugLevel = .extreme then extremeMessages witness else []

/-- A warning, when there is cause for it. -/
def warning (cause : Bool) (msg : String) : List LogMessage := if cause then [⟨.basic, msg⟩] else []

/-- `log_witness_details`, at an instant in seconds. -/
def logWitnessDetails (config : RuntimeConfig) (witness : AgeWitness) (now : UInt64) :
    List LogMessage :=
  let zeroCount := witness.rBits.countP (! ·)
  let oneCount := witness.rBits.length - zeroCount
  let sigZeroCount := witness.sigRjBytes.countP (· == 0)
  if config.debugLevel = .none then []
  else
    [⟨.verbose, "=== WITNESS DETAILS (redacted) ==="⟩] ++
    warning (zeroCount == witness.rBits.length) "WARNING: All R bits are zero!" ++
    warning (oneCount == witness.rBits.length) "WARNING: All R bits are one!" ++
    [⟨.verbose, "R bits: [REDACTED; " ++ toString witness.rBits.length ++ " bits]"⟩] ++
    warning (sigZeroCount == witness.sigRjBytes.length) "WARNING: Signature is all zeros!" ++
    [⟨.verbose, "Sig RJ bytes: [REDACTED; " ++ toString witness.sigRjBytes.length ++ " bytes]"⟩] ++
    warning (witness.cBytes.1 == List.replicate 32 0) "WARNING: Commitment is all zeros!" ++
    warning (witness.iat > now) "WARNING: IAT is in the future!" ++
    warning (witness.exp < now) "WARNING: Credential may be expired!"

/-! ## Runs -/

/-- The events since the last session began. -/
def currentSession (events : List LogEvent) : List LogEvent :=
  (events.reverse.takeWhile fun
    | .startSession _ => false
    | _ => true).reverse

/-- When the last session began. -/
def sessionStart (events : List LogEvent) : Option ℕ :=
  events.reverse.findSome? fun
    | .startSession now => some now
    | _ => none

/-- The lines of the messages recorded, of a session that began then. -/
def sessionLines (startTime : Option ℕ) (messages : List (ℕ × LogMessage)) : List String :=
  messages.map fun m => logEntry startTime m.1 m.2.msg

variable {config : RuntimeConfig}

theorem runLog_concat (events : List LogEvent) (e : LogEvent) (state : Option DebugLogger) :
    runLog config (events ++ [e]) state = e.apply config (runLog config events state) := by
  rw [runLog, List.foldl_append]
  rfl

theorem currentSession_concat (events : List LogEvent) (e : LogEvent) :
    currentSession (events ++ [e]) = match e with
      | .startSession _ => []
      | e => currentSession events ++ [e] := by
  unfold currentSession
  rw [List.reverse_append, List.reverse_singleton, List.singleton_append, List.takeWhile_cons]
  cases e <;> simp

theorem sessionStart_concat (events : List LogEvent) (e : LogEvent) :
    sessionStart (events ++ [e]) = match e with
      | .startSession now => some now
      | _ => sessionStart events := by
  unfold sessionStart
  rw [List.reverse_append, List.reverse_singleton, List.singleton_append, List.findSome?_cons]
  cases e <;> rfl

/-- **What the log holds after a run.** -/
theorem run_eq (events : List LogEvent) : runLog config events (some .new) =
    if .panic ∈ events then none
    else some ⟨sessionLines (sessionStart events) (recordedEvents config (currentSession events)),
      sessionStart events⟩ := by
  induction events using List.reverseRecOn with
  | nil => rfl
  | append_singleton events e ih =>
    rw [runLog_concat, ih]
    by_cases hpanic : .panic ∈ events
    · rw [if_pos hpanic, if_pos (List.mem_append_left _ hpanic)]
      cases e <;> rfl
    · rw [if_neg hpanic, currentSession_concat, sessionStart_concat]
      cases e with
      | startSession now => simp [hpanic, LogEvent.apply, DebugLogger.startSession, recordedEvents,
          sessionLines]
      | panic => simp [LogEvent.apply]
      | log now m =>
        have hrecorded : recordedEvents config (currentSession events ++ [.log now m]) =
            recordedEvents config (currentSession events) ++
              if m.level.toNat ≤ config.debugLevel.toNat then [(now, m)] else [] := by
          rw [recordedEvents, List.filterMap_append]
          congr 1
          by_cases hlevel : m.level.toNat ≤ config.debugLevel.toNat <;> simp [hlevel]
        have hmem : .panic ∉ events ++ [LogEvent.log now m] := by simpa using hpanic
        rw [if_neg hmem]
        simp only [LogEvent.apply, Option.map_some, DebugLogger.log, hrecorded]
        by_cases hlevel : m.level.toNat ≤ config.debugLevel.toNat
        · rw [if_neg (not_lt.mpr hlevel), if_pos hlevel]
          simp [sessionLines]
        · rw [if_pos (not_le.mp hlevel), if_neg hlevel, List.append_nil]

/-! ## What a witness leaves in the log -/

/-- The texts that the configured level records. -/
def recordedTexts (config : RuntimeConfig) (messages : List LogMessage) : List String :=
  (recorded config messages).map LogMessage.msg

theorem recordedTexts_append (l l' : List LogMessage) :
    recordedTexts config (l ++ l') = recordedTexts config l ++ recordedTexts config l' := by
  rw [recordedTexts, recorded, List.filter_append, List.map_append]
  rfl

/-- What `log_detailed_inputs` shows of a witness, besides the age check. -/
structure SameFields (x y : AgeWitness) : Prop where
  v : x.v = y.v
  kid : x.kid.length = y.kid.length
  schema : x.schema.length = y.schema.length
  rBits : x.rBits.length = y.rBits.length
  sigRjBytes : x.sigRjBytes.length = y.sigRjBytes.length
  issuerVkBytes : x.issuerVkBytes = y.issuerVkBytes
  cBytes : x.cBytes = y.cBytes

/-- What two witnesses must share to be logged alike by `log_detailed_inputs`. -/
def SameDetailed (level : DebugLevel) (pub : AgePublic) (x y : AgeWitness) : Prop :=
  level ≠ .none →
    (x.dobDays ≤ pub.cutoffDays ↔ y.dobDays ≤ pub.cutoffDays) ∧ (level ≠ .basic → SameFields x y)

private theorem toString_injective {m n : ℕ} (h : toString m = toString n) : m = n := by
  have hdigits : Nat.toDigits 10 m = Nat.toDigits 10 n := by
    rw [← Nat.toList_repr, ← Nat.toList_repr, ← Nat.toString_eq_repr, ← Nat.toString_eq_repr, h]
  rw [← Nat.ofDigitChars_ten_toDigits (n := m), hdigits, Nat.ofDigitChars_ten_toDigits]

/-- The digits of the text, as bytes. -/
theorem hexEncode_bytes (bytes : List UInt8) :
    (hexEncode bytes).toList.map Char.toUInt8 = Coding.hex bytes := by
  have hdigit : ∀ n, (hexDigit n).toUInt8 = Coding.hexAlphabet.getD n 48 := fun n =>
    (List.getD_map _ _ Char.toUInt8).symm
  unfold hexEncode Coding.hex
  rw [String.toList_ofList, List.map_flatMap]
  refine List.flatMap_congr fun b _ => ?_
  rw [List.map_cons, List.map_singleton, hdigit, hdigit]

theorem hexEncode_injective : Function.Injective hexEncode := fun bytes bytes' h =>
  Coding.hex_injective (by rw [← hexEncode_bytes, h, hexEncode_bytes])

/-- The texts about the fields show them. -/
theorem fieldTexts_eq_iff {x y : AgeWitness} :
    (fieldMessages x).map LogMessage.msg = (fieldMessages y).map LogMessage.msg ↔ SameFields x y := by
  constructor
  · intro h
    simp only [fieldMessages, List.map_cons, List.map_nil, List.cons.injEq, String.append_right_inj,
      true_and, and_true] at h
    obtain ⟨hv, hkid, hschema, hr, -, hsig, hvk, hc⟩ := h
    exact ⟨UInt8.toNat_inj.mp (toString_injective hv), toString_injective hkid,
      toString_injective hschema, toString_injective hr, toString_injective hsig,
      Subtype.ext (hexEncode_injective hvk), Subtype.ext (hexEncode_injective hc)⟩
  · rintro ⟨hv, hkid, hschema, hr, hsig, hvk, hc⟩
    unfold fieldMessages
    rw [hv, hkid, hschema, hr, hsig, hvk, hc]

theorem extremeMessages_congr {x y : AgeWitness} (h : SameFields x y) :
    extremeMessages x = extremeMessages y := by
  unfold extremeMessages
  rw [h.rBits, h.sigRjBytes]

/-- The texts after those about the public values. -/
theorem detailedTexts_eq_iff {pub : AgePublic} {x y : AgeWitness} {now : UInt64}
    (hnone : config.debugLevel ≠ .none) :
    recordedTexts config (logDetailedInputs config pub x now) =
        recordedTexts config (logDetailedInputs config pub y now) ↔
      recordedTexts config (previewMessages pub x) ++ (recordedTexts config (fieldMessages x) ++
          recordedTexts config (if config.debugLevel = .extreme then extremeMessages x else [])) =
        recordedTexts config (previewMessages pub y) ++ (recordedTexts config (fieldMessages y) ++
          recordedTexts config (if config.debugLevel = .extreme then extremeMessages y else [])) := by
  unfold logDetailedInputs
  rw [if_neg hnone, if_neg hnone]
  simp only [recordedTexts_append, List.append_assoc, List.append_cancel_left_eq]

/-- The preview shows whether the date of birth passes, whatever follows it. -/
theorem previewTexts_eq_iff {pub : AgePublic} {x y : AgeWitness} {l l' : List String}
    (hnone : config.debugLevel ≠ .none)
    (hlevel : config.debugLevel = .basic → l = [] ∧ l' = []) :
    recordedTexts config (previewMessages pub x) ++ l =
        recordedTexts config (previewMessages pub y) ++ l' ↔
      (x.dobDays ≤ pub.cutoffDays ↔ y.dobDays ≤ pub.cutoffDays) ∧ l = l' := by
  obtain ⟨level⟩ := config
  unfold previewMessages
  by_cases hx : x.dobDays ≤ pub.cutoffDays <;> by_cases hy : y.dobDays ≤ pub.cutoffDays
  · simp [hx, hy]
  · rw [if_pos hx, if_neg hy]
    refine iff_of_false (fun h => ?_) (by simp [hx, hy])
    cases level with
    | none => exact hnone rfl
    | basic =>
      obtain ⟨rfl, rfl⟩ := hlevel rfl
      exact absurd h (by decide)
    | verbose => exact absurd (List.cons.inj h).1 (by decide)
    | extreme => exact absurd (List.cons.inj h).1 (by decide)
  · rw [if_neg hx, if_pos hy]
    refine iff_of_false (fun h => ?_) (by simp [hx, hy])
    cases level with
    | none => exact hnone rfl
    | basic =>
      obtain ⟨rfl, rfl⟩ := hlevel rfl
      exact absurd h (by decide)
    | verbose => exact absurd (List.cons.inj h).1 (by decide)
    | extreme => exact absurd (List.cons.inj h).1 (by decide)
  · simp [hx, hy]

/-- **What `log_detailed_inputs` shows**, level by level. -/
theorem recorded_detailed_iff {pub : AgePublic} {x y : AgeWitness} {now : UInt64} :
    recordedTexts config (logDetailedInputs config pub x now) =
        recordedTexts config (logDetailedInputs config pub y now) ↔
      SameDetailed config.debugLevel pub x y := by
  unfold SameDetailed
  by_cases hnone : config.debugLevel = .none
  · simp [logDetailedInputs, hnone]
  rw [detailedTexts_eq_iff hnone]
  obtain ⟨level⟩ := config
  cases level with
  | none => exact absurd rfl hnone
  | basic =>
    have hrest : ∀ z, recordedTexts ⟨.basic⟩ (fieldMessages z) ++ recordedTexts ⟨.basic⟩
        (if DebugLevel.basic = .extreme then extremeMessages z else []) = [] := fun _ => rfl
    rw [hrest, hrest, previewTexts_eq_iff hnone fun _ => ⟨rfl, rfl⟩]
    exact ⟨fun h _ => ⟨h.1, fun hne => absurd rfl hne⟩, fun h => ⟨(h hnone).1, rfl⟩⟩
  | verbose =>
    rw [previewTexts_eq_iff hnone nofun]
    have hfields : ∀ z, recordedTexts ⟨.verbose⟩ (fieldMessages z) =
        (fieldMessages z).map LogMessage.msg := fun _ => rfl
    have hextreme : ∀ z, recordedTexts ⟨.verbose⟩
        (if DebugLevel.verbose = .extreme then extremeMessages z else []) = [] := fun _ => rfl
    rw [hextreme, hextreme, List.append_nil, List.append_nil, hfields, hfields, fieldTexts_eq_iff]
    exact ⟨fun h _ => ⟨h.1, fun _ => h.2⟩, fun h => ⟨(h hnone).1, (h hnone).2 nofun⟩⟩
  | extreme =>
    rw [previewTexts_eq_iff hnone nofun]
    have hfields : ∀ z, recordedTexts ⟨.extreme⟩ (fieldMessages z) =
        (fieldMessages z).map LogMessage.msg := fun _ => rfl
    rw [if_pos rfl, if_pos rfl, hfields, hfields]
    constructor
    · intro h _
      have hlen : ((fieldMessages x).map LogMessage.msg).length =
          ((fieldMessages y).map LogMessage.msg).length := rfl
      exact ⟨h.1, fun _ => fieldTexts_eq_iff.mp (List.append_inj h.2 hlen).1⟩
    · intro h
      obtain ⟨hage, hsame⟩ := h hnone
      have hsame := hsame nofun
      rw [fieldTexts_eq_iff.mpr hsame, extremeMessages_congr hsame]
      exact ⟨hage, rfl⟩

/-- What two witnesses must share to be logged alike by `log_witness_details`: the warnings that they
give cause for, and above the level `Basic` two lengths. -/
def SameDetails (level : DebugLevel) (now : UInt64) (x y : AgeWitness) : Prop :=
  level ≠ .none →
    ((∀ b ∈ x.rBits, b = false) ↔ ∀ b ∈ y.rBits, b = false) ∧
    ((∀ b ∈ x.rBits, b = true) ↔ ∀ b ∈ y.rBits, b = true) ∧
    ((∀ b ∈ x.sigRjBytes, b = 0) ↔ ∀ b ∈ y.sigRjBytes, b = 0) ∧
    (x.cBytes.1 = List.replicate 32 0 ↔ y.cBytes.1 = List.replicate 32 0) ∧
    (now < x.iat ↔ now < y.iat) ∧ (x.exp < now ↔ y.exp < now) ∧
    (level ≠ .basic →
      x.rBits.length = y.rBits.length ∧ x.sigRjBytes.length = y.sigRjBytes.length)

private theorem zeroCount_eq_iff {bits : List Bool} :
    bits.countP (! ·) = bits.length ↔ ∀ b ∈ bits, b = false := by
  simp [List.countP_eq_length]

private theorem oneCount_eq_iff {bits : List Bool} :
    bits.length - bits.countP (! ·) = bits.length ↔ ∀ b ∈ bits, b = true := by
  have hle := List.countP_le_length (p := (! ·)) (l := bits)
  have hall : (∀ b ∈ bits, b = true) ↔ bits.countP (! ·) = 0 := by simp [List.countP_eq_zero]
  rw [hall]
  omega

private theorem sigZeroCount_eq_iff {bytes : List UInt8} :
    bytes.countP (· == 0) = bytes.length ↔ ∀ b ∈ bytes, b = 0 := by
  simp [List.countP_eq_length]

theorem recordedTexts_verbose (hnone : config.debugLevel ≠ .none) (msg : String) :
    recordedTexts config [⟨.verbose, msg⟩] = if config.debugLevel = .basic then [] else [msg] := by
  obtain ⟨level⟩ := config
  cases level with
  | none => exact absurd rfl hnone
  | basic => rfl
  | verbose => rfl
  | extreme => rfl

theorem recordedTexts_warning (hnone : config.debugLevel ≠ .none) (cause : Bool) (msg : String) :
    recordedTexts config (warning cause msg) = if cause then [msg] else [] := by
  obtain ⟨level⟩ := config
  cases level with
  | none => exact absurd rfl hnone
  | basic => cases cause <;> rfl
  | verbose => cases cause <;> rfl
  | extreme => cases cause <;> rfl

/-- The line that shows how long the blinding factor is. -/
def rBitsLine (n : ℕ) : String := "R bits: [REDACTED; " ++ toString n ++ " bits]"

/-- The line that shows how long the signature is. -/
def sigBytesLine (n : ℕ) : String := "Sig RJ bytes: [REDACTED; " ++ toString n ++ " bytes]"

/-- The texts of `log_witness_details`, in their order. -/
theorem mem_detailsTexts_iff {x : AgeWitness} {now : UInt64} (hnone : config.debugLevel ≠ .none)
    (text : String) : text ∈ recordedTexts config (logWitnessDetails config x now) ↔
      (config.debugLevel ≠ .basic ∧ text = "=== WITNESS DETAILS (redacted) ===") ∨
      ((∀ b ∈ x.rBits, b = false) ∧ text = "WARNING: All R bits are zero!") ∨
      ((∀ b ∈ x.rBits, b = true) ∧ text = "WARNING: All R bits are one!") ∨
      (config.debugLevel ≠ .basic ∧ text = rBitsLine x.rBits.length) ∨
      ((∀ b ∈ x.sigRjBytes, b = 0) ∧ text = "WARNING: Signature is all zeros!") ∨
      (config.debugLevel ≠ .basic ∧ text = sigBytesLine x.sigRjBytes.length) ∨
      (x.cBytes.1 = List.replicate 32 0 ∧ text = "WARNING: Commitment is all zeros!") ∨
      (now < x.iat ∧ text = "WARNING: IAT is in the future!") ∨
      (x.exp < now ∧ text = "WARNING: Credential may be expired!") := by
  unfold logWitnessDetails
  simp only [if_neg hnone, recordedTexts_append, recordedTexts_verbose hnone,
    recordedTexts_warning hnone, List.mem_append, List.mem_ite_nil_left, List.mem_ite_nil_right,
    List.mem_singleton, beq_iff_eq, zeroCount_eq_iff, oneCount_eq_iff,
    sigZeroCount_eq_iff, decide_eq_true_eq, gt_iff_lt, or_assoc]
  rfl

private theorem head_line {s t : String} {c : Char} (hs : s.toList.head? = some c) :
    (s ++ t).toList.head? = some c := by
  rw [String.toList_append, List.head?_append, hs]
  rfl

theorem rBitsLine_head (n : ℕ) : (rBitsLine n).toList.head? = some 'R' := by
  have h : "R bits: [REDACTED; ".toList.head? = some 'R' := by decide
  unfold rBitsLine
  exact head_line (head_line h)

theorem sigBytesLine_head (n : ℕ) : (sigBytesLine n).toList.head? = some 'S' := by
  have h : "Sig RJ bytes: [REDACTED; ".toList.head? = some 'S' := by decide
  unfold sigBytesLine
  exact head_line (head_line h)

private theorem ne_of_head {s t : String} {c : Char} (hs : s.toList.head? = some c)
    (ht : t.toList.head? ≠ some c) : s ≠ t := by
  rintro rfl
  exact ht hs

/-- Among the texts that begin with a `W` are the warnings only. -/
theorem warning_mem_iff {x : AgeWitness} {now : UInt64} {text : String}
    (hnone : config.debugLevel ≠ .none) (hhead : text.toList.head? = some 'W') :
    text ∈ recordedTexts config (logWitnessDetails config x now) ↔
      ((∀ b ∈ x.rBits, b = false) ∧ text = "WARNING: All R bits are zero!") ∨
      ((∀ b ∈ x.rBits, b = true) ∧ text = "WARNING: All R bits are one!") ∨
      ((∀ b ∈ x.sigRjBytes, b = 0) ∧ text = "WARNING: Signature is all zeros!") ∨
      (x.cBytes.1 = List.replicate 32 0 ∧ text = "WARNING: Commitment is all zeros!") ∨
      (now < x.iat ∧ text = "WARNING: IAT is in the future!") ∨
      (x.exp < now ∧ text = "WARNING: Credential may be expired!") := by
  have hheader : text ≠ "=== WITNESS DETAILS (redacted) ===" := ne_of_head hhead (by decide)
  have hr : text ≠ rBitsLine x.rBits.length :=
    ne_of_head hhead (by rw [rBitsLine_head]; decide)
  have hsig : text ≠ sigBytesLine x.sigRjBytes.length :=
    ne_of_head hhead (by rw [sigBytesLine_head]; decide)
  rw [mem_detailsTexts_iff hnone]
  simp only [hheader, hr, hsig, and_false, false_or]

/-- Among the texts that begin with another letter are the two lengths only. -/
theorem line_mem_iff {x : AgeWitness} {now : UInt64} {text : String} {c : Char}
    (hnone : config.debugLevel ≠ .none) (hhead : text.toList.head? = some c) (hW : c ≠ 'W')
    (heq : c ≠ '=') : text ∈ recordedTexts config (logWitnessDetails config x now) ↔
      config.debugLevel ≠ .basic ∧
        (text = rBitsLine x.rBits.length ∨ text = sigBytesLine x.sigRjBytes.length) := by
  have hne : ∀ s : String, s.toList.head? = some 'W' ∨ s.toList.head? = some '=' →
      (text = s ↔ False) := by
    intro s hs
    refine iff_false_intro (ne_of_head hhead ?_)
    rcases hs with hs | hs <;> rw [hs] <;> simpa using Ne.symm ‹_›
  rw [mem_detailsTexts_iff hnone, hne "=== WITNESS DETAILS (redacted) ===" (by decide),
    hne "WARNING: All R bits are zero!" (by decide), hne "WARNING: All R bits are one!" (by decide),
    hne "WARNING: Signature is all zeros!" (by decide),
    hne "WARNING: Commitment is all zeros!" (by decide),
    hne "WARNING: IAT is in the future!" (by decide),
    hne "WARNING: Credential may be expired!" (by decide)]
  simp only [and_false, false_or, or_false]
  exact and_or_left.symm

theorem rBitsLine_injective : Function.Injective rBitsLine := by
  intro m n h
  unfold rBitsLine at h
  rw [String.append_left_inj, String.append_right_inj] at h
  exact toString_injective h

theorem sigBytesLine_injective : Function.Injective sigBytesLine := by
  intro m n h
  unfold sigBytesLine at h
  rw [String.append_left_inj, String.append_right_inj] at h
  exact toString_injective h

theorem rBitsLine_ne_sigBytesLine (m n : ℕ) : rBitsLine m ≠ sigBytesLine n :=
  ne_of_head (rBitsLine_head m) (by rw [sigBytesLine_head]; decide)

/-- Above the level `Basic` the lines show the two lengths. -/
theorem lengths_eq_of_texts_eq {x y : AgeWitness} {now : UInt64} (hnone : config.debugLevel ≠ .none)
    (h : recordedTexts config (logWitnessDetails config x now) =
      recordedTexts config (logWitnessDetails config y now)) (hbasic : config.debugLevel ≠ .basic) :
    x.rBits.length = y.rBits.length ∧ x.sigRjBytes.length = y.sigRjBytes.length := by
  have hr : rBitsLine x.rBits.length ∈ recordedTexts config (logWitnessDetails config x now) :=
    (line_mem_iff hnone (rBitsLine_head _) (by decide) (by decide)).mpr ⟨hbasic, .inl rfl⟩
  have hsig : sigBytesLine x.sigRjBytes.length ∈
      recordedTexts config (logWitnessDetails config x now) :=
    (line_mem_iff hnone (sigBytesLine_head _) (by decide) (by decide)).mpr ⟨hbasic, .inr rfl⟩
  rw [h, line_mem_iff hnone (rBitsLine_head _) (by decide) (by decide)] at hr
  rw [h, line_mem_iff hnone (sigBytesLine_head _) (by decide) (by decide)] at hsig
  constructor
  · rcases hr.2 with hr | hr
    · exact rBitsLine_injective hr
    · exact absurd hr (rBitsLine_ne_sigBytesLine _ _)
  · rcases hsig.2 with hsig | hsig
    · exact absurd hsig.symm (rBitsLine_ne_sigBytesLine _ _)
    · exact sigBytesLine_injective hsig

/-- **What `log_witness_details` shows**, level by level. -/
theorem recorded_details_iff {x y : AgeWitness} {now : UInt64} :
    recordedTexts config (logWitnessDetails config x now) =
        recordedTexts config (logWitnessDetails config y now) ↔
      SameDetails config.debugLevel now x y := by
  unfold SameDetails
  by_cases hnone : config.debugLevel = .none
  · simp [logWitnessDetails, hnone]
  constructor
  · intro h _
    have hcause := fun (text : String) (hhead : text.toList.head? = some 'W') =>
      (warning_mem_iff hnone hhead).symm.trans
        ((iff_of_eq (congrArg (text ∈ ·) h)).trans (warning_mem_iff hnone hhead))
    refine ⟨?_, ?_, ?_, ?_, ?_, ?_, lengths_eq_of_texts_eq hnone h⟩
    · simpa using hcause "WARNING: All R bits are zero!" (by decide)
    · simpa using hcause "WARNING: All R bits are one!" (by decide)
    · simpa using hcause "WARNING: Signature is all zeros!" (by decide)
    · simpa using hcause "WARNING: Commitment is all zeros!" (by decide)
    · simpa using hcause "WARNING: IAT is in the future!" (by decide)
    · simpa using hcause "WARNING: Credential may be expired!" (by decide)
  · intro h
    obtain ⟨hzero, hone, hsig, hc, hiat, hexp, hlen⟩ := h hnone
    unfold logWitnessDetails
    simp only [if_neg hnone, recordedTexts_append, recordedTexts_verbose hnone,
      recordedTexts_warning hnone, beq_iff_eq, zeroCount_eq_iff, oneCount_eq_iff, sigZeroCount_eq_iff,
      decide_eq_true_eq, gt_iff_lt, hzero, hone, hsig, hc, hiat, hexp]
    by_cases hbasic : config.debugLevel = .basic
    · simp only [if_pos hbasic]
    · obtain ⟨hr, hsigLen⟩ := hlen hbasic
      rw [hr, hsigLen]

/-! ## Runs that differ in a witness -/

/-- A run of all threads: what the others do stands in it, and where one call writes its next
message there is the instant. -/
def weave : List (LogEvent ⊕ ℕ) → List LogMessage → List LogEvent
  | [], _ => []
  | .inl e :: slots, messages => e :: weave slots messages
  | .inr now :: slots, m :: messages => .log now m :: weave slots messages
  | .inr _ :: slots, [] => weave slots []

/-- A message that is not recorded changes nothing, and of a recorded one only the text counts. -/
theorem apply_log_congr {now : ℕ} {m m' : LogMessage} {state : Option DebugLogger}
    (hlevel : m.level = m'.level)
    (htext : m.level.toNat ≤ config.debugLevel.toNat → m.msg = m'.msg) :
    (LogEvent.log now m).apply config state = (LogEvent.log now m').apply config state := by
  cases state with
  | none => rfl
  | some logger =>
    simp only [LogEvent.apply, Option.map_some, DebugLogger.log, ← hlevel]
    by_cases hm : m.level.toNat ≤ config.debugLevel.toNat
    · rw [htext hm]
    · rw [if_pos (not_le.mp hm), if_pos (not_le.mp hm)]

theorem recordedTexts_cons (m : LogMessage) (l : List LogMessage) :
    recordedTexts config (m :: l) =
      (if m.level.toNat ≤ config.debugLevel.toNat then [m.msg] else []) ++ recordedTexts config l := by
  unfold recordedTexts recorded
  by_cases hm : m.level.toNat ≤ config.debugLevel.toNat <;> simp [hm]

/-- Two calls that write messages of the same levels, with the same texts where they are recorded,
leave the same log in every run. -/
theorem runLog_weave_congr (slots : List (LogEvent ⊕ ℕ)) :
    ∀ {l l' : List LogMessage} (state : Option DebugLogger),
      l.map LogMessage.level = l'.map LogMessage.level →
      recordedTexts config l = recordedTexts config l' →
      runLog config (weave slots l) state = runLog config (weave slots l') state := by
  induction slots with
  | nil => intros; rfl
  | cons slot slots ih =>
    intro l l' state hlevels htexts
    cases slot with
    | inl e => exact ih (e.apply config state) hlevels htexts
    | inr now =>
      cases l with
      | nil =>
        obtain rfl := List.map_eq_nil_iff.mp hlevels.symm
        rfl
      | cons m l =>
        obtain ⟨m', l', rfl, hlevel, htail⟩ := List.map_eq_cons_iff.mp hlevels.symm
        rw [recordedTexts_cons, recordedTexts_cons, hlevel] at htexts
        have hsplit := List.append_inj htexts (by split <;> rfl)
        have hstep : (LogEvent.log now m).apply config state =
            (LogEvent.log now m').apply config state := by
          refine apply_log_congr hlevel.symm fun hm => ?_
          simpa [hm] using hsplit.1
        calc
          runLog config (weave slots l) ((LogEvent.log now m).apply config state) =
              runLog config (weave slots l) ((LogEvent.log now m').apply config state) := by
            rw [hstep]
          _ = runLog config (weave slots l') ((LogEvent.log now m').apply config state) :=
            ih _ htail.symm hsplit.2

/-- Alone, a call leaves the lines of what is recorded. -/
theorem runLog_weave_replicate {l : List LogMessage} :
    ∀ {n : ℕ} (logs : List String), l.length ≤ n →
      runLog config (weave (List.replicate n (.inr 0)) l) (some ⟨logs, none⟩) =
        some ⟨logs ++ (recordedTexts config l).map (logEntry none 0), none⟩ := by
  induction l with
  | nil =>
    intro n logs _
    have hweave : ∀ n, weave (List.replicate n (.inr 0)) [] = [] := by
      intro n
      induction n with
      | zero => rfl
      | succ n ih => exact ih
    rw [hweave, show recordedTexts config [] = [] from rfl, List.map_nil, List.append_nil]
    rfl
  | cons m l ih =>
    intro n logs hn
    cases n with
    | zero => exact absurd hn (by simp)
    | succ n =>
      have hn : l.length ≤ n := by simpa using hn
      have hstep : runLog config (weave (List.replicate (n + 1) (.inr 0)) (m :: l))
            (some ⟨logs, none⟩) =
          runLog config (weave (List.replicate n (.inr 0)) l)
            ((LogEvent.log 0 m).apply config (some ⟨logs, none⟩)) := rfl
      rw [hstep, recordedTexts_cons]
      simp only [LogEvent.apply, Option.map_some, DebugLogger.log]
      by_cases hm : m.level.toNat ≤ config.debugLevel.toNat
      · rw [if_neg (not_lt.mpr hm), if_pos hm, ih _ hn]
        simp
      · rw [if_pos (not_le.mp hm), if_neg hm, ih _ hn, List.nil_append]

theorem logEntry_injective (startTime : Option ℕ) (now : ℕ) :
    Function.Injective (logEntry startTime now) := fun _ _ h =>
  (String.append_right_inj _).mp h

/-- A run in which two calls leave the same log shows that the same texts of them are recorded. -/
theorem recordedTexts_eq_of_runs_eq {l l' : List LogMessage}
    (h : ∀ slots state, runLog config (weave slots l) state = runLog config (weave slots l') state) :
    recordedTexts config l = recordedTexts config l' := by
  have hrun := h (List.replicate (l.length + l'.length) (.inr 0)) (some .new)
  unfold DebugLogger.new at hrun
  rw [runLog_weave_replicate [] (Nat.le_add_right _ _),
    runLog_weave_replicate [] (Nat.le_add_left _ _)] at hrun
  simp only [Option.some.injEq, DebugLogger.mk.injEq, List.nil_append, and_true] at hrun
  exact (logEntry_injective none 0).list_map hrun

theorem detailed_levels {pub : AgePublic} {x y : AgeWitness} {now : UInt64}
    (h : SameDetailed config.debugLevel pub x y) :
    (logDetailedInputs config pub x now).map LogMessage.level =
      (logDetailedInputs config pub y now).map LogMessage.level := by
  unfold logDetailedInputs
  by_cases hnone : config.debugLevel = .none
  · rw [if_pos hnone, if_pos hnone]
  · have hage : pub.cutoffDays ≥ x.dobDays ↔ pub.cutoffDays ≥ y.dobDays := (h hnone).1
    have hpreview : (previewMessages pub x).map LogMessage.level =
        (previewMessages pub y).map LogMessage.level := by
      simp only [previewMessages, hage]
    have hextreme : (if config.debugLevel = .extreme then extremeMessages x else []).map
        LogMessage.level = (if config.debugLevel = .extreme then extremeMessages y else []).map
        LogMessage.level := by
      split <;> rfl
    rw [if_neg hnone, if_neg hnone]
    simp only [List.map_append, hpreview, hextreme]
    rfl

theorem levels_warning (cause : Bool) (msg : String) :
    (warning cause msg).map LogMessage.level = if cause then [.basic] else [] := by
  cases cause <;> rfl

theorem details_levels {x y : AgeWitness} {now : UInt64} (h : SameDetails config.debugLevel now x y) :
    (logWitnessDetails config x now).map LogMessage.level =
      (logWitnessDetails config y now).map LogMessage.level := by
  unfold logWitnessDetails
  by_cases hnone : config.debugLevel = .none
  · simp only [if_pos hnone]
  · obtain ⟨hzero, hone, hsig, hc, hiat, hexp, -⟩ := h hnone
    simp only [if_neg hnone, List.map_append, List.map_cons, List.map_nil, levels_warning, beq_iff_eq,
      zeroCount_eq_iff, oneCount_eq_iff, sigZeroCount_eq_iff, decide_eq_true_eq, gt_iff_lt, hzero,
      hone, hsig, hc, hiat, hexp]

/-- In a release build the log stays empty. -/
theorem fullDebugLog_release {var : Option String} {events : List LogEvent}
    (hlevel : ∀ now m, .log now m ∈ events → m.level ≠ .none) :
    fullDebugLog (runLog (.new false var) events (some .new)) = "" := by
  have hrecorded : recordedEvents (.new false var) (currentSession events) = [] := by
    refine List.filterMap_eq_nil_iff.mpr fun e he => ?_
    have hmem : e ∈ events := by
      have := List.mem_reverse.mp he
      exact List.mem_reverse.mp ((List.takeWhile_sublist _).mem this)
    cases e with
    | log now m =>
      have hne := hlevel now m hmem
      refine if_neg ?_
      cases hm : m.level <;> simp_all [RuntimeConfig.new, DebugLevel.toNat]
    | startSession => rfl
    | panic => rfl
  rw [run_eq, hrecorded]
  by_cases hpanic : .panic ∈ events
  · rw [if_pos hpanic]
    rfl
  · rw [if_neg hpanic]
    rfl

/-- **The debug log.** After any interleaving of the calls of all threads it holds the messages of
the configured level since the last session began, unless a thread panicked with it in hand. No run
tells apart two witnesses that agree on what `SameDetailed` names and are logged by
`log_detailed_inputs`, and every other two some run does tell apart; so for `log_witness_details` and
`SameDetails`. In a release build nothing comes out, whatever the environment says. -/
theorem debug_log :
    (∀ config events, runLog config events (some .new) =
      if .panic ∈ events then none
      else some ⟨sessionLines (sessionStart events) (recordedEvents config (currentSession events)),
        sessionStart events⟩) ∧
    (∀ (config : RuntimeConfig) (pub : AgePublic) (x y : AgeWitness) (now : UInt64),
      (∀ slots state, runLog config (weave slots (logDetailedInputs config pub x now)) state =
        runLog config (weave slots (logDetailedInputs config pub y now)) state) ↔
      SameDetailed config.debugLevel pub x y) ∧
    (∀ (config : RuntimeConfig) (x y : AgeWitness) (now : UInt64),
      (∀ slots state, runLog config (weave slots (logWitnessDetails config x now)) state =
        runLog config (weave slots (logWitnessDetails config y now)) state) ↔
      SameDetails config.debugLevel now x y) ∧
    ∀ (var : Option String) (events : List LogEvent),
      (∀ now m, .log now m ∈ events → m.level ≠ .none) →
      fullDebugLog (runLog (.new false var) events (some .new)) = "" := by
  refine ⟨fun config events => run_eq events, ?_, ?_, fun _ _ => fullDebugLog_release⟩
  · intro config pub x y now
    constructor
    · intro h
      exact recorded_detailed_iff.mp (recordedTexts_eq_of_runs_eq h)
    · intro h slots state
      exact runLog_weave_congr slots state (detailed_levels h) (recorded_detailed_iff.mpr h)
  · intro config x y now
    constructor
    · intro h
      exact recorded_details_iff.mp (recordedTexts_eq_of_runs_eq h)
    · intro h slots state
      exact runLog_weave_congr slots state (details_levels h) (recorded_details_iff.mpr h)

theorem debug_log_release :
    fullDebugLog (runLog (.new false (some "Extreme")) [.startSession 7, .log 9 ⟨.basic, "a"⟩]
      (some .new)) = "" ∧
    fullDebugLog (runLog (.new true none) [.startSession 7, .log 9 ⟨.basic, "a"⟩]
      (some .new)) = "[     0ms] a" := by
  refine ⟨debug_log.2.2.2 _ _ ?_, by decide⟩
  intro now m hm
  have hm : m = ⟨.basic, "a"⟩ := by simp_all
  rw [hm]
  exact nofun

end ProviiCrypto
