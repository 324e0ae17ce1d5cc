import Volclava.LimMaster

/-!
# Shared resources in the master LIM

The master LIM keeps one value for each instance of a shared resource, and the host it has it from.
The hosts of an instance report values with their load updates. A report is taken by a priority rule
that compares the places of the reporting host and of the present source in the host list of the
instance, and the old and the new value. The source of an instance is given up when a tick finds
that it has been silent for too long.

Two things are forgotten. A report that is passed over because an earlier host is the source is not
kept for the time when that host has no value any more. A take-over marks all other hosts
unavailable but leaves them the sources they were.

- `ResLim.LiveSource`: what an instance should be like at any time.
- `ResConf.liveSource_run`: it is like that in every run that avoids the two.
-/

namespace Volclava

open Function List

/-! ## Instances and their sources -/

/-- An instance of a shared resource as the cluster file has it. `addHostInstance` drops hosts that
are listed twice. -/
structure InstanceConf where
  resName : String
  dynamic : Bool
  hosts : List Nat
  nodup : hosts.Nodup
  deriving DecidableEq

/-- `getValidHosts` drops hosts that another instance of the resource has. -/
structure ResConf extends LimConf where
  instances : List InstanceConf
  disjoint : instances.Pairwise fun x y => x.resName = y.resName → x.hosts.Disjoint y.hosts

/-- The state of an instance. The last two fields are history: the value each host has reported
last, and what it has said in its last update. -/
structure Instance where
  value : String
  updHost : Option Nat
  lastValue : Nat → Option String
  lastUpdate : Nat → Option String

namespace Instance

def init : Instance where
  value := "-"
  updHost := none
  lastValue := fun _ => none
  lastUpdate := fun _ => none

/-- Whether `copyResValues` takes the value `v` from host `h`. -/
def takes (hosts : List Nat) (h : Nat) (v : String) (x : Instance) : Bool :=
  if v = "-" ∧ x.value = "-" then false
  else
    match x.updHost with
    | none => true
    | some u =>
      match hosts.idxOf? u, hosts.idxOf? h with
      | some updHostNo, some curHostNo =>
        if updHostNo < curHostNo ∧ (v = "-" ∨ x.value ≠ "-") then false
        else if curHostNo < updHostNo ∧ v = "-" then false
        else if updHostNo = curHostNo ∧ v = x.value then false
        else true
      | _, _ => false

/-- Host `h` reports the value `v`. -/
def report (hosts : List Nat) (h : Nat) (v : String) (x : Instance) : Instance where
  value := if x.takes hosts h v then v else x.value
  updHost := if x.takes hosts h v then some h else x.updHost
  lastValue := Function.update x.lastValue h (some v)
  lastUpdate := Function.update x.lastUpdate h (some v)

/-- An update of host `h` begins, which has said nothing yet. -/
def beginUpdate (h : Nat) (x : Instance) : Instance :=
  { x with lastUpdate := Function.update x.lastUpdate h none }

/-- The source is given up. -/
def clear (x : Instance) : Instance := { x with value := "-", updHost := none }

end Instance

/-- What a load update says: whether the host is unavailable, and at most one value for each
resource. -/
structure LoadVector where
  unavail : Bool
  resPairs : List (String × String)
  nodup : (resPairs.map Prod.fst).Nodup

/-- The state of a LIM, with what it knows of the hosts and the shared resources. -/
structure ResLim where
  lim : Lim
  unavail : Nat → Bool
  infoValid : Nat → Bool
  hostInactivityCount : Nat → Nat
  inst : Nat → Instance

namespace ResConf

variable (c : ResConf)

def hosts (i : Nat) : List Nat := (c.instances[i]?.map (·.hosts)).getD []

def dynamic (i : Nat) : Bool := c.instances[i]?.any (·.dynamic)

/-- `inHostResourcs` and `isInHostList`: the instance of a resource that has the host. -/
def instanceOf (resName : String) (h : Nat) : Option Nat :=
  c.instances.findIdx? fun x => x.resName = resName ∧ h ∈ x.hosts

/-- The body of the loop of `copyResValues`. -/
def copyResValue (h : Nat) (inst : Nat → Instance) (p : String × String) : Nat → Instance :=
  match c.instanceOf p.1 h with
  | none => inst
  | some i => Function.update inst i ((inst i).report (c.hosts i) h p.2)

def copyResValues (vec : LoadVector) (h : Nat) (inst : Nat → Instance) : Nat → Instance :=
  vec.resPairs.foldl (c.copyResValue h) fun i => (inst i).beginUpdate h

/-! ## The handlers -/

def rcvLoadVector (h : Nat) (vec : LoadVector) (s : ResLim) : ResLim :=
  if s.lim.masterMe ∧ h < c.numHosts ∧ s.infoValid h then
    { s with
      hostInactivityCount := Function.update s.hostInactivityCount h 0
      unavail := Function.update s.unavail h vec.unavail
      inst := c.copyResValues vec h s.inst }
  else s

/-- `rcvConfInfo`; `ok` says that the numbers sent are sensible. -/
def rcvConfInfo (h : Nat) (ok : Bool) (s : ResLim) : ResLim :=
  if s.lim.masterMe ∧ h < c.numHosts ∧ s.infoValid h = false ∧ ok then
    { s with infoValid := Function.update s.infoValid h true }
  else s

/-- A host is declared unavailable. -/
def declareUnavail (h : Nat) (s : ResLim) : ResLim :=
  { s with
    unavail := Function.update s.unavail h true
    infoValid := Function.update s.infoValid h false
    inst := fun i =>
      if h ∈ c.hosts i ∧ (s.inst i).updHost = some h ∧ c.dynamic i then (s.inst i).clear
      else s.inst i }

/-- The next value of an inactivity counter. -/
def countUp (n : Nat) : Nat := if n + 1 > 10000 then 100 else n + 1

/-- What a tick of the master does for one host. -/
def tickHost (s : ResLim) (h : Nat) : ResLim :=
  if h = c.hostNo then s
  else
    let n := countUp (s.hostInactivityCount h)
    let s := { s with hostInactivityCount := Function.update s.hostInactivityCount h n }
    if s.unavail h = false ∧ c.hostInactivityLimit + c.retryLimit < n then c.declareUnavail h s
    else s

/-- The hosts after `initNewMaster`. -/
def forgetHosts (s : ResLim) : ResLim :=
  { s with
    unavail := fun h => if h < c.numHosts ∧ h ≠ c.hostNo then true else s.unavail h
    infoValid := fun h => if h < c.numHosts ∧ h ≠ c.hostNo then false else s.infoValid h
    hostInactivityCount := fun h =>
      if h < c.numHosts ∧ h ≠ c.hostNo then 0 else s.hostInactivityCount h }

/-- This tick gives up a known master. -/
def givesUp (l : Lim) : Bool :=
  l.masterKnown ∧ c.hostInactivityLimit < (l.masterInactivityCount + 1 : Nat) ∧
    c.hostInactivityLimit + c.retryLimit < (l.masterInactivityCount + 1 : Nat)

/-- A master that is given up is marked unavailable. -/
def markMaster (s : ResLim) : ResLim :=
  { s with
    unavail := fun h => if s.lim.masterPtr = some h ∧ c.givesUp s.lim then true else s.unavail h }

/-- This tick makes a LIM the master. -/
def takesOver (connects : Nat → Bool) (l : Lim) : Bool :=
  l.masterMe = false ∧ (c.sendLoad connects l).masterMe

/-- `sendLoad`, as far as it goes before the load is sent. -/
def tick (connects : Nat → Bool) (s : ResLim) : ResLim :=
  if s.lim.masterMe then (List.range c.numHosts).foldl c.tickHost s
  else
    let s' := { c.markMaster s with lim := c.sendLoad connects s.lim }
    if c.takesOver connects s.lim then c.forgetHosts s' else s'

/-- The state in which the main loop begins. Of the hosts only this one is known. -/
def start : ResLim where
  lim := c.startUp
  unavail := fun h => h ≠ c.hostNo
  infoValid := fun h => h = c.hostNo
  hostInactivityCount := fun _ => 0
  inst := fun _ => .init

end ResConf

/-- What happens to a LIM that may be the master. -/
inductive ResEvent where
  | load (h : Nat) (vec : LoadVector)
  | confInfo (h : Nat) (ok : Bool)
  | announced (h : Nat)
  | tick (connects : Nat → Bool)

def ResConf.resStep (c : ResConf) (s : ResLim) : ResEvent → ResLim
  | .load h vec => c.rcvLoadVector h vec s
  | .confInfo h ok => c.rcvConfInfo h ok s
  | .announced h => { s with lim := (c.masterRegister s.lim h).1 }
  | .tick connects => c.tick connects s

/-! ## What is reported -/

namespace ResConf

variable {c : ResConf} {h i : Nat}

theorem instanceOf_eq_some {resName : String} :
    c.instanceOf resName h = some i ↔
      ∃ x, c.instances[i]? = some x ∧ x.resName = resName ∧ h ∈ x.hosts := by
  unfold instanceOf
  rw [List.findIdx?_eq_some_iff_getElem]
  constructor
  · rintro ⟨hi, hp, -⟩
    refine ⟨c.instances[i], by simp [hi], ?_⟩
    simpa using hp
  · rintro ⟨x, hx, hname, hh⟩
    obtain ⟨hi, rfl⟩ := List.getElem?_eq_some_iff.mp hx
    refine ⟨hi, by simp [hname, hh], ?_⟩
    intro j hji
    -- An earlier instance of the resource does not have the host.
    have hdisj := pairwise_iff_getElem.mp c.disjoint j i (by omega) hi hji
    simp only [decide_eq_true_eq, not_and]
    exact fun hj hh' => hdisj (hj.trans hname.symm) hh' hh

/-- The value that a list of reports of host `h` gives for an instance. -/
def reported (c : ResConf) (pairs : List (String × String)) (h i : Nat) : Option String :=
  c.instances[i]?.bind fun x => if h ∈ x.hosts then pairs.lookup x.resName else none

theorem mem_hosts_iff : h ∈ c.hosts i ↔ ∃ x, c.instances[i]? = some x ∧ h ∈ x.hosts := by
  unfold hosts
  cases c.instances[i]? with
  | none => simp
  | some x => simp

theorem reported_nil (h i : Nat) : c.reported [] h i = none := by
  unfold reported
  cases c.instances[i]? with
  | none => rfl
  | some x => simp

theorem reported_cons_self {p : String × String} (hi : c.instanceOf p.1 h = some i)
    (ps : List (String × String)) : c.reported (p :: ps) h i = some p.2 := by
  obtain ⟨x, hx, hname, hh⟩ := instanceOf_eq_some.mp hi
  unfold reported
  rw [hx, Option.bind_some, if_pos hh, hname]
  exact lookup_cons_self

theorem reported_cons_of_ne {p : String × String} (hi : c.instanceOf p.1 h ≠ some i)
    (ps : List (String × String)) : c.reported (p :: ps) h i = c.reported ps h i := by
  unfold reported
  cases hx : c.instances[i]? with
  | none => rfl
  | some x =>
    rw [Option.bind_some, Option.bind_some]
    by_cases hh : h ∈ x.hosts
    · have hne : x.resName ≠ p.1 := fun hname => hi (instanceOf_eq_some.mpr ⟨x, hx, hname, hh⟩)
      have hbeq : (x.resName == p.1) = false := beq_eq_false_iff_ne.mpr hne
      rw [if_pos hh, if_pos hh, lookup_cons, hbeq]
    · rw [if_neg hh, if_neg hh]

/-- A resource that is not named in the reports is not reported. -/
theorem reported_of_notMem {resName : String} {ps : List (String × String)}
    (hi : c.instanceOf resName h = some i) (hno : resName ∉ ps.map Prod.fst) :
    c.reported ps h i = none := by
  obtain ⟨x, hx, hname, hh⟩ := instanceOf_eq_some.mp hi
  unfold reported
  rw [hx, Option.bind_some, if_pos hh, lookup_eq_none_iff]
  intro q hq
  refine bne_iff_ne.mpr fun heq => hno ?_
  exact mem_map.mpr ⟨q, hq, heq.symm.trans hname⟩

/-- Each instance gets the one value that is reported for it. -/
theorem foldl_copyResValue (ps : List (String × String)) (hnd : (ps.map Prod.fst).Nodup) (h : Nat)
    (f : Nat → Instance) (i : Nat) :
    ps.foldl (c.copyResValue h) f i =
      match c.reported ps h i with
      | none => f i
      | some v => (f i).report (c.hosts i) h v := by
  induction ps generalizing f with
  | nil => rw [reported_nil]; rfl
  | cons p ps ih =>
    rw [map_cons, nodup_cons] at hnd
    rw [foldl_cons, ih hnd.2]
    by_cases hi : c.instanceOf p.1 h = some i
    · -- This pair is about the instance, and no later one is.
      rw [reported_cons_self hi, reported_of_notMem hi hnd.1]
      simp [copyResValue, hi]
    · have hf : c.copyResValue h f p i = f i := by
        unfold copyResValue
        cases hj : c.instanceOf p.1 h with
        | none => rfl
        | some j =>
          have hne : i ≠ j := fun heq => hi (by rw [hj, heq])
          exact update_of_ne hne ..
      rw [reported_cons_of_ne hi, hf]

/-- **One instance in a load update.** -/
theorem copyResValues_apply (vec : LoadVector) (h : Nat) (inst : Nat → Instance) (i : Nat) :
    c.copyResValues vec h inst i =
      match c.reported vec.resPairs h i with
      | none => (inst i).beginUpdate h
      | some v => ((inst i).beginUpdate h).report (c.hosts i) h v :=
  foldl_copyResValue vec.resPairs vec.nodup h _ i

theorem mem_hosts_of_reported {ps : List (String × String)} {v : String}
    (hv : c.reported ps h i = some v) : h ∈ c.hosts i := by
  unfold reported at hv
  cases hx : c.instances[i]? with
  | none => simp [hx] at hv
  | some x =>
    rw [hx, Option.bind_some] at hv
    by_cases hh : h ∈ x.hosts
    · exact mem_hosts_iff.mpr ⟨x, hx, hh⟩
    · simp [hh] at hv

end ResConf

/-! ## The law -/

/-- Host `h` stands before `u` in the list. -/
def before (hosts : List Nat) (h u : Nat) : Prop := hosts.idxOf h < hosts.idxOf u

instance (hosts : List Nat) (h u : Nat) : Decidable (before hosts h u) := by
  unfold before; infer_instance

/-- The host has a value to offer: it is available, and has said other than "-" in its last
update. -/
def Instance.Offers (unavail : Nat → Bool) (x : Instance) (h : Nat) : Prop :=
  unavail h = false ∧ ∃ v ∈ x.lastUpdate h, v ≠ "-"

/-- The source of an instance is one of its hosts and available, the value is what it has reported
last, and no host before it has a value to offer. Without a source there is no value. -/
structure Instance.Live (hosts : List Nat) (unavail : Nat → Bool) (x : Instance) : Prop where
  mem : ∀ u ∈ x.updHost, u ∈ hosts
  avail : ∀ u ∈ x.updHost, unavail u = false
  last : ∀ u ∈ x.updHost, x.lastValue u = some x.value
  first : ∀ u ∈ x.updHost, ∀ h ∈ hosts, before hosts h u → ¬ x.Offers unavail h
  none : x.updHost = none → x.value = "-"

namespace Instance

variable {hosts : List Nat} {unavail : Nat → Bool} {x : Instance} {h : Nat} {v : String}

theorem idxOf_of_idxOf? {u k : Nat} (hk : hosts.idxOf? u = some k) :
    u ∈ hosts ∧ hosts.idxOf u = k := by
  refine ⟨isSome_idxOf?.mp (by rw [hk]; rfl), ?_⟩
  rw [idxOf_eq_getD_idxOf?, hk]
  rfl

/-- The reports that are taken: a value of the source, or other than "-" from a host before the
source or when the instance has no value. -/
theorem takes_cases (hnone : x.updHost = .none → x.value = "-") (ht : x.takes hosts h v = true) :
    x.updHost = some h ∨
      (v ≠ "-" ∧ (x.value = "-" ∨ ∃ u ∈ x.updHost, before hosts h u)) := by
  unfold takes at ht
  split_ifs at ht with h1
  cases hu : x.updHost with
  | none =>
    refine .inr ⟨fun hv => h1 ⟨hv, hnone hu⟩, .inl (hnone hu)⟩
  | some u =>
    rw [hu] at ht
    dsimp only at ht
    split at ht
    next updHostNo curHostNo hup hcur =>
      obtain ⟨hmem, rfl⟩ := idxOf_of_idxOf? hup
      obtain ⟨-, rfl⟩ := idxOf_of_idxOf? hcur
      split_ifs at ht with h2 h3 h4
      rcases lt_trichotomy (hosts.idxOf u) (hosts.idxOf h) with hlt | heq | hgt
      · have hv : v ≠ "-" := fun hv => h2 ⟨hlt, .inl hv⟩
        have hx : x.value = "-" := by
          by_contra hne
          exact h2 ⟨hlt, .inr hne⟩
        exact .inr ⟨hv, .inl hx⟩
      · exact .inl (congrArg some ((idxOf_inj hmem).mp heq))
      · exact .inr ⟨fun hv => h3 ⟨hgt, hv⟩, .inr ⟨u, rfl, hgt⟩⟩
    next => simp at ht

/-- A report of the source that is not taken repeats the value. -/
theorem eq_of_not_takes (hm : h ∈ hosts) (hu : x.updHost = some h)
    (ht : x.takes hosts h v = false) : v = x.value := by
  obtain ⟨k, hk⟩ := Option.isSome_iff_exists.mp (isSome_idxOf?.mpr hm)
  unfold takes at ht
  simp only [hu, hk] at ht
  split_ifs at ht with h1 h2 h3 h4
  · rw [h1.1, h1.2]
  · exact absurd h2.1 (lt_irrefl _)
  · exact absurd h3.1 (lt_irrefl _)
  · exact h4.2

/-- A report of a host before the source that is not taken is "-". -/
theorem dash_of_not_takes {u : Nat} (hm : h ∈ hosts) (hmu : u ∈ hosts) (hu : x.updHost = some u)
    (hb : before hosts h u) (ht : x.takes hosts h v = false) : v = "-" := by
  obtain ⟨k, hk⟩ := Option.isSome_iff_exists.mp (isSome_idxOf?.mpr hm)
  obtain ⟨j, hj⟩ := Option.isSome_iff_exists.mp (isSome_idxOf?.mpr hmu)
  have hkj : k < j := by
    rw [← (idxOf_of_idxOf? hk).2, ← (idxOf_of_idxOf? hj).2]
    exact hb
  unfold takes at ht
  simp only [hu, hk, hj] at ht
  split_ifs at ht with h1 h2 h3 h4
  · exact h1.1
  · exact absurd h2.1 hkj.asymm
  · exact h3.2
  · exact absurd h4.1 hkj.ne'

theorem before_ne {g u : Nat} (hb : before hosts g u) : g ≠ u := fun heq =>
  lt_irrefl _ (heq ▸ hb : before hosts u u)

/-- What a host offers does not change when another one reports. -/
theorem offers_report_of_ne {g : Nat} (hne : g ≠ h) (b : Bool) :
    ((x.beginUpdate h).report hosts h v).Offers (Function.update unavail h b) g ↔
      x.Offers unavail g := by
  unfold Offers report beginUpdate
  simp only [update_of_ne hne]

/-- **A report of an available host** keeps an instance live, if no host before it has a value to
offer that the instance does not have. -/
theorem Live.report (hx : x.Live hosts unavail) (hm : h ∈ hosts)
    (hpassed : v ≠ "-" → x.value = "-" → ∀ g ∈ hosts, before hosts g h → ¬ x.Offers unavail g) :
    ((x.beginUpdate h).report hosts h v).Live hosts (Function.update unavail h false) := by
  have htakes : (x.beginUpdate h).takes hosts h v = x.takes hosts h v := rfl
  cases ht : x.takes hosts h v with
  | true =>
    have hup : ((x.beginUpdate h).report hosts h v).updHost = some h := if_pos ht
    have hval : ((x.beginUpdate h).report hosts h v).value = v := if_pos ht
    refine ⟨?_, ?_, ?_, ?_, ?_⟩
    · rintro u hu
      obtain rfl := Option.some.inj (hup.symm.trans hu)
      exact hm
    · rintro u hu
      obtain rfl := Option.some.inj (hup.symm.trans hu)
      exact update_self ..
    · rintro u hu
      obtain rfl := Option.some.inj (hup.symm.trans hu)
      rw [hval]
      exact update_self ..
    · rintro u hu g hg hb
      obtain rfl := Option.some.inj (hup.symm.trans hu)
      rw [offers_report_of_ne (before_ne hb)]
      rcases takes_cases hx.none ht with hsrc | ⟨hv, hdash | ⟨u, hu, hbu⟩⟩
      · exact hx.first h hsrc g hg hb
      · exact hpassed hv hdash g hg hb
      · exact hx.first u hu g hg (lt_trans hb hbu)
    · intro hnone
      exact absurd (hup.symm.trans hnone) (by simp)
  | false =>
    have hup : ((x.beginUpdate h).report hosts h v).updHost = x.updHost :=
      if_neg (by rw [htakes, ht]; decide)
    have hval : ((x.beginUpdate h).report hosts h v).value = x.value :=
      if_neg (by rw [htakes, ht]; decide)
    refine ⟨?_, ?_, ?_, ?_, ?_⟩
    · rw [hup]
      exact hx.mem
    · rw [hup]
      intro u hu
      by_cases heq : u = h
      · rw [heq, update_self]
      · rw [update_of_ne heq]
        exact hx.avail u hu
    · rw [hup, hval]
      intro u hu
      by_cases heq : u = h
      · subst heq
        rw [← eq_of_not_takes hm hu ht]
        exact update_self ..
      · refine (update_of_ne heq ..).trans ?_
        exact hx.last u hu
    · rw [hup]
      intro u hu g hg hb
      by_cases heq : g = h
      · subst heq
        have hv := dash_of_not_takes hm (hx.mem u hu) hu hb ht
        rintro ⟨-, w, hw, hne⟩
        have hself : ((x.beginUpdate g).report hosts g v).lastUpdate g = some v :=
          update_self ..
        rw [hself] at hw
        exact hne ((Option.some.inj hw).symm.trans hv)
      · rw [offers_report_of_ne heq]
        exact hx.first u hu g hg hb
    · rw [hup, hval]
      exact hx.none

/-- An available host may also report nothing. -/
theorem Live.beginUpdate (hx : x.Live hosts unavail) :
    (x.beginUpdate h).Live hosts (Function.update unavail h false) := by
  refine ⟨hx.mem, ?_, hx.last, ?_, hx.none⟩
  · intro u hu
    by_cases heq : u = h
    · rw [heq, update_self]
    · rw [update_of_ne heq]
      exact hx.avail u hu
  · rintro u hu g hg hb ⟨hav, w, hw, hne⟩
    by_cases heq : g = h
    · subst heq
      have hself : (x.beginUpdate g).lastUpdate g = .none := update_self ..
      rw [hself] at hw
      cases hw
    · have hother : (x.beginUpdate h).lastUpdate g = x.lastUpdate g := update_of_ne heq ..
      rw [update_of_ne heq] at hav
      rw [hother] at hw
      exact hx.first u hu g hg hb ⟨hav, w, hw, hne⟩

/-- Without a source nothing depends on the hosts. -/
theorem live_of_none (hu : x.updHost = .none) (hv : x.value = "-") : x.Live hosts unavail := by
  refine ⟨?_, ?_, ?_, ?_, fun _ => hv⟩ <;> rw [hu] <;> simp

/-- A host that is not the source becomes unavailable. -/
theorem Live.unavail_of_ne (hx : x.Live hosts unavail) (hne : x.updHost ≠ some h) :
    x.Live hosts (Function.update unavail h true) := by
  refine ⟨hx.mem, ?_, hx.last, ?_, hx.none⟩
  · intro u hu
    have huh : u ≠ h := fun heq => hne (by rw [← heq]; exact hu)
    rw [update_of_ne huh]
    exact hx.avail u hu
  · rintro u hu g hg hb ⟨hav, hw⟩
    refine hx.first u hu g hg hb ⟨?_, hw⟩
    by_cases heq : g = h
    · subst heq
      simp at hav
    · rwa [update_of_ne heq] at hav

end Instance

/-! ## Runs -/

/-- Every instance of a dynamic resource is live. -/
def ResLim.LiveSource (c : ResConf) (s : ResLim) : Prop :=
  ∀ i < c.instances.length, c.dynamic i = true → (s.inst i).Live (c.hosts i) s.unavail

namespace ResConf

variable (c : ResConf)

/-- The events that keep the law. An update is from an available host, and a value it gives for an
instance that has none is not preceded, in the host list, by a host that has a value to offer. A
take-over comes when no instance has a source. -/
def Ok (s : ResLim) : ResEvent → Prop
  | .load h vec =>
    vec.unavail = false ∧
      ∀ i < c.instances.length, c.dynamic i = true → ∀ v ∈ c.reported vec.resPairs h i, v ≠ "-" →
        (s.inst i).value = "-" →
          ∀ g ∈ c.hosts i, before (c.hosts i) g h → ¬ (s.inst i).Offers s.unavail g
  | .tick connects =>
    c.takesOver connects s.lim = true →
      ∀ i < c.instances.length, c.dynamic i = true → (s.inst i).updHost = none
  | _ => True

/-- What holds whether or not this LIM is the master. -/
structure Inv (s : ResLim) : Prop where
  none : ∀ i < c.instances.length, c.dynamic i = true → (s.inst i).updHost = none →
    (s.inst i).value = "-"
  live : s.lim.masterMe = true → s.LiveSource c

variable {c}

variable {s : ResLim}

theorem inv_of_live (h : s.LiveSource c) : c.Inv s :=
  ⟨fun i hi hd => (h i hi hd).none, fun _ => h⟩

theorem live_rcvLoadVector (hs : s.LiveSource c) {h : Nat} {vec : LoadVector}
    (hok : c.Ok s (.load h vec)) : (c.rcvLoadVector h vec s).LiveSource c := by
  unfold rcvLoadVector
  split_ifs
  · intro i hi hd
    show (c.copyResValues vec h s.inst i).Live (c.hosts i) (Function.update s.unavail h vec.unavail)
    rw [copyResValues_apply, hok.1]
    cases hv : c.reported vec.resPairs h i with
    | none => exact (hs i hi hd).beginUpdate
    | some v =>
      exact (hs i hi hd).report (mem_hosts_of_reported hv) (hok.2 i hi hd v hv)
  · exact hs

theorem live_declareUnavail (hs : s.LiveSource c) (h : Nat) :
    (c.declareUnavail h s).LiveSource c := by
  intro i hi hd
  have hx := hs i hi hd
  unfold declareUnavail
  dsimp only
  split_ifs with hclear
  · exact Instance.live_of_none rfl rfl
  · exact hx.unavail_of_ne fun hu => hclear ⟨hx.mem h hu, hu, hd⟩

theorem live_tickHost (hs : s.LiveSource c) (h : Nat) :
    (c.tickHost s h).LiveSource c := by
  unfold tickHost
  dsimp only
  split_ifs
  · exact hs
  · exact live_declareUnavail (s := { s with hostInactivityCount := _ }) hs h
  · exact hs

theorem live_tickHosts (hs : List Nat) (hlive : s.LiveSource c) :
    (hs.foldl c.tickHost s).LiveSource c :=
  List.foldlRecOn hs _ hlive fun _ hx h _ => live_tickHost hx h

theorem masterMe_of_masterRegister {l : Lim} {h : Nat}
    (hm : (c.masterRegister l h).1.masterMe = true) : l.masterMe = true := by
  unfold LimConf.masterRegister at hm
  split_ifs at hm <;> exact hm

theorem inv_tick (hs : c.Inv s) {connects : Nat → Bool} (hok : c.Ok s (.tick connects)) :
    c.Inv (c.tick connects s) := by
  unfold tick
  split_ifs with hm htake
  · exact inv_of_live (live_tickHosts _ (hs.live hm))
  · -- No instance has a source, so it does not matter which hosts are available.
    refine inv_of_live fun i hi hd => ?_
    have hu := hok htake i hi hd
    exact Instance.live_of_none hu (hs.none i hi hd hu)
  · have hlost : (c.sendLoad connects s.lim).masterMe ≠ true := by
      intro hnew
      refine htake ?_
      simp [takesOver, hm, hnew]
    exact ⟨hs.none, fun hnew => absurd hnew hlost⟩

theorem inv_step (s : ResLim) (e : ResEvent) (hok : c.Ok s e) (hs : c.Inv s) :
    c.Inv (c.resStep s e) := by
  cases e with
  | load h vec =>
    by_cases hm : s.lim.masterMe = true
    · exact inv_of_live (live_rcvLoadVector (hs.live hm) hok)
    · have heq : c.rcvLoadVector h vec s = s := if_neg fun hc => hm hc.1
      show c.Inv (c.rcvLoadVector h vec s)
      rw [heq]
      exact hs
  | confInfo h ok =>
    show c.Inv (c.rcvConfInfo h ok s)
    unfold rcvConfInfo
    split_ifs
    · exact ⟨hs.none, hs.live⟩
    · exact hs
  | announced h => exact ⟨hs.none, fun hm => hs.live (masterMe_of_masterRegister hm)⟩
  | tick connects => exact inv_tick hs hok

theorem live_start (c : ResConf) : c.start.LiveSource c := fun _ _ _ =>
  Instance.live_of_none rfl rfl

/-- **A live source in every run.** While this LIM is the master, every instance of a dynamic
resource is live. -/
theorem liveSource_run (c : ResConf) (es : List ResEvent)
    (hok : Run.Along c.resStep c.Ok c.start es) (n : Nat)
    (hm : (Run.run c.resStep c.start (es.take n)).lim.masterMe = true) :
    (Run.run c.resStep c.start (es.take n)).LiveSource c :=
  (Run.inv_take inv_step (inv_of_live (live_start c)) hok n).live hm

instance (unavail : Nat → Bool) (x : Instance) (h : Nat) : Decidable (x.Offers unavail h) := by
  unfold Instance.Offers; infer_instance

instance (s : ResLim) (e : ResEvent) : Decidable (c.Ok s e) := by
  cases e <;> unfold Ok <;> infer_instance

/-- A cluster of four hosts with the default limits, in which `license` is shared by three. -/
def licenseConf (hostNo : Nat) (h : hostNo < 4) (hosts : List Nat) (hnd : hosts.Nodup) :
    ResConf where
  toLimLimits := doclparams none none none
  numHosts := 4
  hostNo := hostNo
  configured := h
  computeOnly := false
  instances := [⟨"license", true, hosts, hnd⟩]
  disjoint := List.pairwise_singleton ..

def licenses (v : String) : LoadVector := ⟨false, [("license", v)], by simp⟩

/-- The source goes from host 2 to host 1, which then has no value, and back. -/
theorem source_moves_live :
    let c := licenseConf 0 (by decide) [1, 2] (by decide)
    let es : List ResEvent := [.confInfo 1 true, .confInfo 2 true, .load 2 (licenses "5"),
      .load 1 (licenses "7"), .load 1 (licenses "-"), .load 2 (licenses "4")]
    (Run.run c.resStep c.start (es.take 6)).LiveSource c := by
  intro c es
  refine liveSource_run c es ?_ 6 ?_
  · decide +kernel
  · decide +kernel

/-- A LIM that loses mastership and takes it back keeps host 3 as the source, which is unavailable.
And the report of host 2 is passed over while host 1 is the source, so that host 3 becomes the
source when host 1 has no value any more. -/
theorem source_lost :
    (let c := licenseConf 1 (by decide) [3] (by decide)
     let s := Run.run c.resStep c.start (List.replicate 8 (.tick fun _ => false) ++
       [.confInfo 3 true, .load 3 (licenses "5"), .announced 0] ++
       List.replicate 8 (.tick fun _ => false))
     s.lim.masterMe = true ∧ (s.inst 0).updHost = some 3 ∧ (s.inst 0).value = "5" ∧
       s.unavail 3 = true ∧ ¬ s.LiveSource c) ∧
    (let c := licenseConf 0 (by decide) [1, 2, 3] (by decide)
     let s := Run.run c.resStep c.start [.confInfo 1 true, .confInfo 2 true, .confInfo 3 true,
       .load 1 (licenses "7"), .load 2 (licenses "5"), .load 1 (licenses "-"),
       .load 3 (licenses "4")]
     s.lim.masterMe = true ∧ (s.inst 0).updHost = some 3 ∧ (s.inst 0).lastUpdate 2 = some "5" ∧
       s.unavail 2 = false ∧ ¬ s.LiveSource c) := by
  constructor
  · intro c s
    have hu : (s.inst 0).updHost = some 3 := by decide +kernel
    have hav : s.unavail 3 = true := by decide +kernel
    refine ⟨by decide +kernel, hu, by decide +kernel, hav, fun hlive => ?_⟩
    have h3 := (hlive 0 (by decide) (by decide)).avail 3 hu
    exact absurd (hav.symm.trans h3) (by decide)
  · intro c s
    have hu : (s.inst 0).updHost = some 3 := by decide +kernel
    have hlast : (s.inst 0).lastUpdate 2 = some "5" := by decide +kernel
    have hav : s.unavail 2 = false := by decide +kernel
    refine ⟨by decide +kernel, hu, hlast, hav, fun hlive => ?_⟩
    exact (hlive 0 (by decide) (by decide)).first 3 hu 2 (by decide) (by decide)
      ⟨hav, "5", hlast, by decide⟩

end ResConf

end Volclava
