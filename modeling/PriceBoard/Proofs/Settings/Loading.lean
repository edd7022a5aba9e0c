import PriceBoard.Settings
import Mathlib.Data.Option.Basic

/-!
# Loading settings

Settings that load are in range, and each is what its variable says or its default. A
fault blames a variable that is set to a value out of range. Nothing else about the
environment matters: neither values that cannot be read, nor blanks, nor other variables
(`ranges_of_load`).
-/

namespace PriceBoard

/-! ## Blanks -/

namespace Text

theorem dropBlanks_append {blanks : List Char} (h : blanks.all isBlank) (cs : List Char) :
    dropBlanks (blanks ++ cs) = dropBlanks cs :=
  List.dropWhile_append_of_pos (List.all_eq_true.mp h)

theorem dropBlanks_of_all {blanks : List Char} (h : blanks.all isBlank) : dropBlanks blanks = [] := by
  rw [← List.append_nil blanks, dropBlanks_append h]
  rfl

/-- Blanks around a text are trimmed with it. -/
theorem trim_padded {before after : List Char} (hbefore : before.all isBlank) (hafter : after.all isBlank)
    (cs : List Char) : trim (before ++ cs ++ after) = trim cs := by
  have hdrop : dropBlanks (cs ++ after) =
      if (dropBlanks cs).isEmpty then dropBlanks after else dropBlanks cs ++ after := List.dropWhile_append
  rw [trim, trim, List.append_assoc, dropBlanks_append hbefore, hdrop]
  split
  · have hempty : dropBlanks cs = [] := List.isEmpty_iff.mp ‹_›
    rw [dropBlanks_of_all hafter, hempty]
  · rw [List.reverse_append, dropBlanks_append (by rwa [List.all_reverse])]

end Text

/-! ## What variables say -/

def naturalOf (bits : Nat) (text : String) : Option Nat := readUnsigned? bits (Text.trim text.toList)

def realOf (text : String) : Option Float := Decimal.read? (Text.trim text.toList)

inductive Value
  | natural (n : Nat)
  | real (x : Float)
  | text (s : String)

def Variable.parse? (text : String) : Variable → Option Value
  | .updateFraction => (realOf text).map .real
  | .source => some (.text text)
  | .pulseSteps => (naturalOf 32 text).map .natural
  | _ => (naturalOf 64 text).map .natural

theorem Variable.name_injective : Function.Injective Variable.name := by
  intro v w h
  cases v <;> cases w <;> first | rfl | exact absurd h (by decide)

theorem Variable.parse?_padded {before after : String} (hbefore : Text.isBlankText before)
    (hafter : Text.isBlankText after) (text : String) {v : Variable} (hv : v ≠ .source) :
    v.parse? (before ++ text ++ after) = v.parse? text := by
  have htrim : Text.trim (before ++ text ++ after).toList = Text.trim text.toList := by
    rw [String.toList_append, String.toList_append]
    exact Text.trim_padded hbefore hafter _
  cases v <;> first | exact absurd rfl hv | simp only [parse?, naturalOf, realOf, htrim]

namespace Environment

def set (env : Environment) (v : Variable) (text : String) : Environment :=
  fun name => if name = v.name then some text else env name

def unset (env : Environment) (v : Variable) : Environment :=
  fun name => if name = v.name then none else env name

def value? (env : Environment) (v : Variable) : Option Value := (env.get? v).bind fun text => v.parse? text

/-- A setting is what its variable says, or its default when the variable is not set or
cannot be read. -/
inductive Gives {α : Type} (env : Environment) (v : Variable) (parse? : String → Option α) (standard : α) :
    α → Prop
  | read {text : String} {a : α} (hset : env.get? v = some text) (hparse : parse? text = some a) :
      Gives env v parse? standard a
  | unset (hset : env.get? v = none) : Gives env v parse? standard standard
  | unreadable {text : String} (hset : env.get? v = some text) (hparse : parse? text = none) :
      Gives env v parse? standard standard

variable {α : Type} {env : Environment} {v : Variable} {parse? : String → Option α} {standard a : α}

theorem gives_of_getD (h : ((env.get? v).bind parse?).getD standard = a) : env.Gives v parse? standard a := by
  subst h
  cases hset : env.get? v with
  | none => exact .unset hset
  | some text =>
    cases hparse : parse? text with
    | none => simpa [hparse] using Gives.unreadable hset hparse
    | some a => simpa [hparse] using Gives.read hset hparse

theorem Gives.exists_of_ne (h : env.Gives v parse? standard a) (hne : a ≠ standard) :
    ∃ text, env.get? v = some text ∧ parse? text = some a := by
  cases h with
  | read hset hparse => exact ⟨_, hset, hparse⟩
  | unset => exact absurd rfl hne
  | unreadable => exact absurd rfl hne

theorem get?_set (env : Environment) (v : Variable) (text : String) (w : Variable) :
    (env.set v text).get? w = if w = v then some text else env.get? w := by
  simp only [get?, set, Variable.name_injective.eq_iff]

theorem get?_unset (env : Environment) (v w : Variable) :
    (env.unset v).get? w = if w = v then none else env.get? w := by
  simp only [get?, unset, Variable.name_injective.eq_iff]

theorem value?_eq_natural {bits : Nat} (hv : ∀ text, v.parse? text = (naturalOf bits text).map .natural)
    (env : Environment) : env.value? v = (env.natural? bits v).map .natural := by
  have hparse : (fun text => v.parse? text) = fun text => (naturalOf bits text).map .natural := funext hv
  rw [value?, hparse, natural?, Option.map_bind]
  rfl

theorem value?_eq_real (env : Environment) :
    env.value? .updateFraction = (env.real? .updateFraction).map .real := by
  rw [real?, Option.map_bind]
  rfl

theorem value?_eq_text (env : Environment) : env.value? .source = (env.get? .source).map .text := by
  rw [value?, Option.map_eq_bind]
  rfl

theorem natural?_congr {env' : Environment} {bits : Nat}
    (hv : ∀ text, v.parse? text = (naturalOf bits text).map .natural) (h : env.value? v = env'.value? v) :
    env.natural? bits v = env'.natural? bits v := by
  rw [value?_eq_natural hv, value?_eq_natural hv] at h
  exact Option.map_injective (fun _ _ => Value.natural.inj) h

end Environment

namespace Settings

open Environment (Gives gives_of_getD)

/-- Only what the variables say matters. -/
theorem read_congr {env env' : Environment} (h : ∀ v, env.value? v = env'.value? v) : read env = read env' := by
  have hnatural (v : Variable) (bits : Nat) (hv : ∀ text, v.parse? text = (naturalOf bits text).map .natural) :
      env.natural? bits v = env'.natural? bits v := Environment.natural?_congr hv (h v)
  have hreal : env.real? .updateFraction = env'.real? .updateFraction := by
    have hvalue := h .updateFraction
    rw [Environment.value?_eq_real, Environment.value?_eq_real] at hvalue
    exact Option.map_injective (fun _ _ => Value.real.inj) hvalue
  have htext : env.get? .source = env'.get? .source := by
    have hvalue := h .source
    rw [Environment.value?_eq_text, Environment.value?_eq_text] at hvalue
    exact Option.map_injective (fun _ _ => Value.text.inj) hvalue
  unfold read
  rw [hnatural .tickInterval 64 fun _ => rfl, hreal, hnatural .seed 64 fun _ => rfl, htext,
    hnatural .pulseSteps 32 fun _ => rfl, hnatural .pulseDuration 64 fun _ => rfl,
    hnatural .statusInterval 64 fun _ => rfl, hnatural .monitorInterval 64 fun _ => rfl,
    hnatural .shutdownGrace 64 fun _ => rfl]

theorem load_congr {env env' : Environment} (h : ∀ v, env.value? v = env'.value? v) : load env = load env' := by
  rw [load, load, read_congr h]

def standard : Settings := {}

/-- Each setting is what its variable says, in the unit of that variable, or its default. -/
structure ReadFrom (s : Settings) (env : Environment) : Prop where
  tickInterval :
    Gives env .tickInterval (fun t => (naturalOf 64 t).map Time.ofMillis) standard.tickInterval s.tickInterval
  updateFraction : Gives env .updateFraction realOf standard.updateFraction s.updateFraction
  seed : Gives env .seed (fun t => (naturalOf 64 t).map some) standard.seed s.seed
  source : Gives env .source some standard.source s.source
  pulseSteps : Gives env .pulseSteps (naturalOf 32) standard.pulseSteps s.pulseSteps
  pulseDuration :
    Gives env .pulseDuration (fun t => (naturalOf 64 t).map Time.ofMillis) standard.pulseDuration s.pulseDuration
  statusInterval :
    Gives env .statusInterval (fun t => (naturalOf 64 t).map Time.ofMillis) standard.statusInterval s.statusInterval
  monitorInterval :
    Gives env .monitorInterval (fun t => (naturalOf 64 t).map Time.ofSeconds) standard.monitorInterval
      s.monitorInterval
  grace : Gives env .shutdownGrace (fun t => (naturalOf 64 t).map Time.ofMillis) standard.grace s.grace

theorem readFrom_read (env : Environment) : (read env).ReadFrom env := by
  have hspan (v : Variable) (ofUnits : Nat → Time.Nanos) (a : Time.Nanos) :
      ((env.get? v).bind fun t => (naturalOf 64 t).map ofUnits).getD a =
        ((env.natural? 64 v).map ofUnits).getD a := by
    rw [Environment.natural?, Option.map_bind]
    rfl
  have hseed : ((env.get? .seed).bind fun t => (naturalOf 64 t).map some).getD none = env.natural? 64 .seed := by
    rw [Environment.natural?]
    cases env.get? .seed with
    | none => rfl
    | some t =>
      show ((naturalOf 64 t).map some).getD none = naturalOf 64 t
      cases naturalOf 64 t <;> rfl
  have hsource : ((env.get? .source).bind some).getD standard.source = (env.get? .source).getD standard.source := by
    cases env.get? .source <;> rfl
  exact {
    tickInterval := gives_of_getD (hspan ..)
    updateFraction := gives_of_getD rfl
    seed := gives_of_getD hseed
    source := gives_of_getD hsource
    pulseSteps := gives_of_getD rfl
    pulseDuration := gives_of_getD (hspan ..)
    statusInterval := gives_of_getD (hspan ..)
    monitorInterval := gives_of_getD (hspan ..)
    grace := gives_of_getD (hspan ..) }

end Settings

/-! ## Checks -/

/-- What settings are checked for, in order. -/
inductive Check
  | fraction | steps | tickInterval | statusInterval | statusLimit | monitorInterval | source

namespace Check

def all : List Check := [fraction, steps, tickInterval, statusInterval, statusLimit, monitorInterval, source]

def subject : Check → Variable
  | fraction => .updateFraction
  | steps => .pulseSteps
  | tickInterval => .tickInterval
  | statusInterval | statusLimit => .statusInterval
  | monitorInterval => .monitorInterval
  | source => .source

def Passes (s : Settings) : Check → Prop
  | fraction => 0 < s.updateFraction ∧ s.updateFraction ≤ 1
  | steps => s.pulseSteps ≠ 0
  | tickInterval => s.tickInterval ≠ 0
  | statusInterval => s.statusInterval ≠ 0
  | statusLimit => ¬ Settings.longestStatusInterval < s.statusInterval
  | monitorInterval => s.monitorInterval ≠ 0
  | source => ¬ Text.isBlankText s.source

instance (s : Settings) : DecidablePred (Passes s)
  | fraction => inferInstanceAs (Decidable (_ ∧ _))
  | steps | tickInterval | statusInterval | monitorInterval => inferInstanceAs (Decidable (_ ≠ _))
  | statusLimit | source => inferInstanceAs (Decidable (¬ _))

def fault (s : Settings) : Check → SettingsFault
  | fraction => .fraction s.updateFraction
  | steps => .noSteps
  | tickInterval => .noTickInterval
  | statusInterval => .noStatusInterval
  | statusLimit => .longStatusInterval (s.statusInterval / 1000000)
  | monitorInterval => .noMonitorInterval
  | source => .blankSource

theorem mem_all (c : Check) : c ∈ all := by
  cases c <;> simp [all]

theorem passes_standard (c : Check) : c.Passes Settings.standard := by
  cases c <;> decide +kernel

end Check

/-- The value of a variable that a fault reports, out of the range that it reports. -/
def SettingsFault.Refuses (text : String) : SettingsFault → Prop
  | fraction x => realOf text = some x ∧ ¬ (0 < x ∧ x ≤ 1)
  | noSteps => naturalOf 32 text = some 0
  | noTickInterval | noStatusInterval | noMonitorInterval => naturalOf 64 text = some 0
  | longStatusInterval millis => naturalOf 64 text = some millis ∧ 1000 < millis
  | blankSource => Text.isBlankText text

namespace Settings

open Environment (Gives)

/-- The fault is of the first check that does not pass. -/
theorem fault?_eq (s : Settings) : s.fault? = (Check.all.find? fun c => ¬ c.Passes s).map (·.fault s) := by
  have hstep (c : Check) (cs : List Check) : ((c :: cs).find? fun c => ¬ c.Passes s).map (·.fault s) =
      if ¬ c.Passes s then some (c.fault s) else (cs.find? fun c => ¬ c.Passes s).map (·.fault s) := by
    by_cases h : c.Passes s <;> simp [h]
  simp only [Check.all, hstep, List.find?_nil, Option.map_none]
  simp only [Check.Passes, ne_eq, not_not]
  rfl

theorem load_of_fault? {env : Environment} {fault : SettingsFault} (h : (read env).fault? = some fault) :
    load env = .error fault := by
  simp only [load, h]

theorem load_of_no_fault {env : Environment} (h : (read env).fault? = none) : load env = .ok (read env) := by
  simp only [load, h]

theorem passes_of_load {env : Environment} {s : Settings} (h : load env = .ok s) :
    s = read env ∧ ∀ c : Check, c.Passes s := by
  cases hfault : (read env).fault? with
  | some fault => cases (load_of_fault? hfault).symm.trans h
  | none =>
    cases (load_of_no_fault hfault).symm.trans h
    rw [fault?_eq, Option.map_eq_none_iff, List.find?_eq_none] at hfault
    exact ⟨rfl, fun c => by simpa using hfault c c.mem_all⟩

theorem check_of_load {env : Environment} {fault : SettingsFault} (h : load env = .error fault) :
    ∃ before c after, Check.all = before ++ c :: after ∧ (∀ b ∈ before, b.Passes (read env)) ∧
      ¬ c.Passes (read env) ∧ fault = c.fault (read env) := by
  cases hfault : (read env).fault? with
  | none => cases (load_of_no_fault hfault).symm.trans h
  | some found =>
    cases (load_of_fault? hfault).symm.trans h
    rw [fault?_eq] at hfault
    obtain ⟨c, hfind, rfl⟩ := Option.map_eq_some_iff.mp hfault
    obtain ⟨hc, before, after, hall, hbefore⟩ := List.find?_eq_some_iff_append.mp hfind
    exact ⟨before, c, after, hall, fun b hb => by simpa using hbefore b hb, by simpa using hc, rfl⟩

theorem blames_fault (c : Check) (s : Settings) : (c.fault s).blames = c.subject := by
  cases c <;> rfl

/-- Only a span of no units is nothing. -/
theorem natural_of_gives_zero {env : Environment} {v : Variable} {ofUnits : Nat → Time.Nanos}
    {default span : Time.Nanos} (hunits : ∀ n, ofUnits n = 0 → n = 0)
    (h : Gives env v (fun t => (naturalOf 64 t).map ofUnits) default span) (hspan : span = 0)
    (hdefault : default ≠ 0) :
    ∃ text, env.get? v = some text ∧ naturalOf 64 text = some 0 := by
  subst hspan
  obtain ⟨text, hset, hparse⟩ := h.exists_of_ne hdefault.symm
  obtain ⟨n, hn, hzero⟩ := Option.map_eq_some_iff.mp hparse
  exact ⟨text, hset, hunits n hzero ▸ hn⟩

/-- Defaults pass every check, so that what does not pass is the value of a variable. -/
theorem refuses_of_not_passes {s : Settings} {env : Environment} (hs : s.ReadFrom env) {c : Check}
    (hc : ¬ c.Passes s) : ∃ text, env.get? c.subject = some text ∧ (c.fault s).Refuses text := by
  have hmillis (n : Nat) (h : Time.ofMillis n = 0) : n = 0 := (Nat.mul_eq_zero.mp h).resolve_right (by decide)
  have hseconds (n : Nat) (h : Time.ofSeconds n = 0) : n = 0 := (Nat.mul_eq_zero.mp h).resolve_right (by decide)
  have hdefault := c.passes_standard
  cases c with
  | fraction =>
    obtain ⟨text, hset, hparse⟩ := hs.updateFraction.exists_of_ne fun he => hc (by rwa [Check.Passes, he])
    exact ⟨text, hset, hparse, hc⟩
  | steps =>
    obtain ⟨text, hset, hparse⟩ := hs.pulseSteps.exists_of_ne fun he => hc (by rwa [Check.Passes, he])
    exact ⟨text, hset, hparse.trans (congrArg some (not_not.mp hc))⟩
  | tickInterval => exact natural_of_gives_zero hmillis hs.tickInterval (not_not.mp hc) hdefault
  | statusInterval => exact natural_of_gives_zero hmillis hs.statusInterval (not_not.mp hc) hdefault
  | statusLimit =>
    obtain ⟨text, hset, hparse⟩ := hs.statusInterval.exists_of_ne fun he => hc (by rwa [Check.Passes, he])
    obtain ⟨n, hn, hspan⟩ := Option.map_eq_some_iff.mp hparse
    have hlong : longestStatusInterval < Time.ofMillis n := hspan ▸ not_not.mp hc
    have hmore : 1000 * 1000000 < n * 1000000 := hlong
    have hmillis : s.statusInterval / 1000000 = n := by
      rw [← hspan]
      exact Nat.mul_div_cancel n (by decide)
    refine ⟨text, hset, hn.trans (congrArg some hmillis.symm), ?_⟩
    rw [hmillis]
    exact Nat.lt_of_mul_lt_mul_right hmore
  | monitorInterval => exact natural_of_gives_zero hseconds hs.monitorInterval (not_not.mp hc) hdefault
  | source =>
    obtain ⟨text, hset, hparse⟩ := hs.source.exists_of_ne fun he => hc (by rwa [Check.Passes, he])
    cases hparse
    exact ⟨s.source, hset, not_not.mp hc⟩

theorem refuses_of_load {env : Environment} {fault : SettingsFault} (h : load env = .error fault) :
    ∃ text, env.get? fault.blames = some text ∧ fault.Refuses text := by
  obtain ⟨before, c, after, -, -, hc, rfl⟩ := check_of_load h
  rw [blames_fault]
  exact refuses_of_not_passes (readFrom_read env) hc

/-- Settings that load are in range, and each is what its variable says or its default. A
fault blames a variable that is set to a value out of the range that the fault reports,
by the first check that does not pass, and no longer blames it once it is not set. What
is loaded does not change when a variable that cannot be read is not set, when blanks are
put around any other value than that of the source, or with anything else. -/
theorem ranges_of_load (env : Environment) :
    (∀ s, load env = .ok s →
      (0 < s.updateFraction ∧ s.updateFraction ≤ 1) ∧ 1 ≤ s.pulseSteps ∧ 0 < s.tickInterval ∧
      0 < s.statusInterval ∧ s.statusInterval ≤ Time.ofMillis 1000 ∧ 0 < s.monitorInterval ∧
      ¬ Text.isBlankText s.source ∧ s.ReadFrom env) ∧
    (∀ fault, load env = .error fault →
      (∃ text, env.get? fault.blames = some text ∧ fault.Refuses text) ∧
      (∃ s : Settings, s.ReadFrom env ∧ ∃ before c after, Check.all = before ++ c :: after ∧
        (∀ b ∈ before, b.Passes s) ∧ ¬ c.Passes s ∧ fault = c.fault s) ∧
      ∀ other, load (env.unset fault.blames) = .error other → other.blames ≠ fault.blames) ∧
    (∀ v text, env.get? v = some text → v.parse? text = none → load (env.unset v) = load env) ∧
    (∀ v text before after, v ≠ .source → env.get? v = some text → Text.isBlankText before →
      Text.isBlankText after → load (env.set v (before ++ text ++ after)) = load env) ∧
    ∀ env' : Environment, (∀ v, env'.get? v = env.get? v) → load env' = load env := by
  refine ⟨fun s h => ?_, fun fault h => ⟨refuses_of_load h, ?_, fun other hother heq => ?_⟩,
    fun v text hset hparse => load_congr fun w => ?_,
    fun v text before after hv hset hbefore hafter => load_congr fun w => ?_, fun env' h => load_congr fun v => ?_⟩
  · obtain ⟨rfl, hpasses⟩ := passes_of_load h
    exact ⟨hpasses .fraction, Nat.one_le_iff_ne_zero.mpr (hpasses .steps),
      Nat.pos_of_ne_zero (hpasses .tickInterval), Nat.pos_of_ne_zero (hpasses .statusInterval),
      Nat.le_of_not_lt (hpasses .statusLimit), Nat.pos_of_ne_zero (hpasses .monitorInterval), hpasses .source,
      readFrom_read env⟩
  · exact ⟨read env, readFrom_read env, check_of_load h⟩
  · obtain ⟨text, hset, -⟩ := refuses_of_load hother
    rw [heq, Environment.get?_unset, if_pos rfl] at hset
    cases hset
  · rw [Environment.value?, Environment.value?, Environment.get?_unset]
    split
    · subst w
      rw [hset]
      exact hparse.symm
    · rfl
  · rw [Environment.value?, Environment.value?, Environment.get?_set]
    split
    · subst w
      rw [hset]
      exact Variable.parse?_padded hbefore hafter text hv
    · rfl
  · rw [Environment.value?, Environment.value?, h]

/-- A fraction that is no number, and a seed that cannot be read. -/
def nanFraction : Environment := (Environment.set (fun _ => none) .updateFraction " NaN ").set .seed "many"

/-- A fraction that is no number is refused, with more blanks around it and without the
seed just as well, and without the fraction the settings load. -/
theorem ranges_of_nan_fraction :
    (∃ fault, load nanFraction = .error fault ∧ fault.Refuses " NaN " ∧
      load (nanFraction.unset .seed) = .error fault ∧
      load (nanFraction.set .updateFraction ("\t" ++ " NaN " ++ "\n")) = .error fault) ∧
    ∃ s, load (nanFraction.unset .updateFraction) = .ok s ∧ s.updateFraction ≤ 1 := by
  obtain ⟨-, hfault, hunset, hpadded, -⟩ := ranges_of_load nanFraction
  have hfraction : nanFraction.get? .updateFraction = some " NaN " := by decide
  constructor
  · have hblames : (read nanFraction).fault?.map (·.blames) = some .updateFraction := by decide +kernel
    obtain ⟨fault, hread, hblames⟩ := Option.map_eq_some_iff.mp hblames
    have hload := load_of_fault? hread
    obtain ⟨⟨text, hset, hrefuses⟩, -, -⟩ := hfault fault hload
    rw [hblames, hfraction] at hset
    cases hset
    refine ⟨fault, hload, hrefuses, ?_, ?_⟩
    · exact (hunset .seed "many" (by decide) (by decide +kernel)).trans hload
    · exact (hpadded _ _ "\t" "\n" (by decide) hfraction (by decide) (by decide)).trans hload
  · have hnone : (read (nanFraction.unset .updateFraction)).fault?.isNone := by decide +kernel
    have hload := load_of_no_fault (Option.isNone_iff_eq_none.mp hnone)
    obtain ⟨⟨-, hfraction⟩, -⟩ := (ranges_of_load (nanFraction.unset .updateFraction)).1 _ hload
    exact ⟨_, hload, hfraction⟩

end Settings

end PriceBoard
