import ResourceShards.Archive.Offer
import ResourceShards.Proofs.Archive.Noting
import ResourceShards.Proofs.Archive.Stored

/-!
# ResourceShards.Proofs.Archive.Conflicts

**Which of several declarations of one name is kept.** A slot holds the first of the longest
payloads that were offered for it, refused ones included: a payload is refused exactly if it has the
length of the one that is stored and is another one. A refusal leaves the session as it was, though
the call has begun to change it by then, and no call touches another slot.

* `Session.offer_eq`: the calls do what collecting does
* `FirstOfLongest`: which payload of several is kept
* `Session.firstOfLongest_callEach`: what is in a slot after any calls
* `Session.offer_conflictRule`: the rule as a whole
-/

namespace ResourceShards

/-! ### The first of the longest -/

/-- The payload that is kept of one that may be stored and one that is offered. -/
def keep (stored? : Option Bytes) (offered : Bytes) : Bytes :=
  match stored? with
  | none => offered
  | some kept => if kept.length < offered.length then offered else kept

/-- What is kept of payloads that come one after the other: the first of the longest. All that came
before it are shorter, and none that came after it is longer. -/
def FirstOfLongest (offers : List Bytes) : Option Bytes → Prop
  | none => offers = []
  | some kept => ∃ before after, offers = before ++ kept :: after ∧
      (∀ other ∈ before, other.length < kept.length) ∧
      ∀ other ∈ after, other.length ≤ kept.length

theorem FirstOfLongest.keep {offers : List Bytes} {stored? : Option Bytes}
    (h : FirstOfLongest offers stored?) (offered : Bytes) :
    FirstOfLongest (offers ++ [offered]) (some (keep stored? offered)) := by
  cases stored? with
  | none =>
      obtain rfl : offers = [] := h
      exact ⟨[], [], rfl, by simp, by simp⟩
  | some kept =>
      obtain ⟨before, after, rfl, hbefore, hafter⟩ := h
      simp only [ResourceShards.keep]
      split
      · rename_i hlonger
        refine ⟨before ++ kept :: after, [], rfl, fun other hother => ?_, by simp⟩
        simp only [List.mem_append, List.mem_cons] at hother
        rcases hother with hother | rfl | hother
        · exact Nat.lt_trans (hbefore other hother) hlonger
        · exact hlonger
        · exact Nat.lt_of_le_of_lt (hafter other hother) hlonger
      · rename_i hnot
        refine ⟨before, after ++ [offered], by simp, hbefore, fun other hother => ?_⟩
        simp only [List.mem_append, List.mem_singleton] at hother
        rcases hother with hother | rfl
        · exact hafter other hother
        · exact Nat.le_of_not_lt hnot

namespace Session

variable {s : Session} {source : ResourceFile} {name : ResourceName}

/-! ### Step by step and at once -/

/-- Where `stored?` tells of a payload the file holds it. -/
theorem held_of_stored {kept : Bytes} (h : s.stored? (.ofDeclaration source name) = some kept) :
    ∃ found, s.values.get? (source.path.components, name.type) = some found ∧
      found.payloads.get? name.text = some kept :=
  Option.bind_eq_some_iff.1 h

/-- `stored?` tells what the file holds under the name. -/
theorem payload_held (s : Session) (source : ResourceFile) (name : ResourceName) :
    (s.held source name.type).payloads.get? name.text = s.stored? (.ofDeclaration source name) := by
  simp only [held, stored?, Slot.ofDeclaration]
  cases s.values.get? (source.path.components, name.type) <;> rfl

/-- `ready` stores nothing. -/
theorem stored?_ready (s : Session) (source : ResourceFile) (type : ResourceType) (slot : Slot) :
    (s.ready source type).stored? slot = s.stored? slot := by
  unfold stored? ready Table.alter
  rw [Table.get?_insert]
  split
  · rename_i hkey
    rw [← hkey]
    cases s.values.get? (source.path.components, type) <;> rfl
  · rfl

/-- `put` behind `ready` is `hold`. -/
theorem put_ready (s : Session) (source : ResourceFile) (name : ResourceName) (payload : Bytes) :
    (s.ready source name.type).put source name payload = s.hold source name payload := by
  unfold ready put hold held Table.alter
  simp only [Table.get?_insert, if_pos, Table.insert_insert]
  rfl

theorem ready_of_stored {kept : Bytes}
    (h : s.stored? (.ofDeclaration source name) = some kept) : s.ready source name.type = s := by
  obtain ⟨found, hfound, -⟩ := held_of_stored h
  unfold ready Table.alter
  rw [hfound]
  simp only [Option.getD_some, Table.insert_self hfound]

/-- To `hold` what is stored changes nothing. -/
theorem hold_of_stored {kept : Bytes}
    (h : s.stored? (.ofDeclaration source name) = some kept) : s.hold source name kept = s := by
  obtain ⟨found, hfound, hkept⟩ := held_of_stored h
  have hheld : s.held source name.type = found := by
    rw [held, hfound, Option.getD_some]
  unfold hold
  rw [hheld]
  simp only [Table.insert_self hkept, Table.insert_self hfound]

/-- `offer` in one equation. What `ready` begins for a declaration that is not stored has left no
trace. -/
theorem offer_eq (s : Session) (source : ResourceFile) (name : ResourceName) (payload : Bytes) :
    offer source name payload s =
      if s.drops name then .ok () s
      else
        match s.stored? (.ofDeclaration source name) with
        | none => .ok () (s.hold source name payload)
        | some kept =>
          if payload.length < kept.length then .ok () s
          else if payload.length = kept.length then
            if kept = payload then .ok () s else .error (.valueConflict name.text) s
          else .ok () (s.hold source name payload) := by
  unfold offer
  rw [bind_of_ok (show (get : Filing Session) s = .ok s s from rfl)]
  cases hdrops : s.drops name with
  | true => rfl
  | false =>
      simp only [Bool.false_eq_true, if_false]
      rw [bind_of_ok (show (modify (ready source name.type) : Filing PUnit) s =
          .ok () (s.ready source name.type) from rfl),
        bind_of_ok (show (get : Filing Session) (s.ready source name.type) =
          .ok (s.ready source name.type) (s.ready source name.type) from rfl), stored?_ready]
      have hput : (modify (put source name payload) : Filing PUnit) (s.ready source name.type) =
          .ok () (s.hold source name payload) := by
        rw [← put_ready]
        rfl
      cases hstored : s.stored? (.ofDeclaration source name) with
      | none => exact hput
      | some kept =>
          simp only
          split
          · rw [ready_of_stored hstored]
            rfl
          · split
            · split
              · rw [ready_of_stored hstored]
                rfl
              · rw [ready_of_stored hstored]
                rfl
            · exact hput

/-- `call` does what `collect` does, and one that is refused leaves the session as it was. -/
theorem call_eq (s : Session) (d : Delivery) :
    call d s =
      match s.collect d with
      | .ok t => .ok () t
      | .error e => .error e s := by
  cases d with
  | file file => rfl
  | collected source item =>
      cases item with
      | rootAttribute attr => rfl
      | value name payload =>
          rw [collect, collectValue_eq, payload_held, call, offer_eq]
          cases hdrops : s.drops name with
          | true => rfl
          | false =>
              simp only [Bool.false_eq_true, if_false]
              cases hstored : s.stored? (.ofDeclaration source name) with
              | none => rfl
              | some kept =>
                  have hsame := hold_of_stored hstored
                  simp only [longer]
                  rcases Nat.lt_trichotomy payload.length kept.length with hlt | heq | hgt
                  · simp only [if_pos hlt, hsame]
                  · by_cases hpayload : kept = payload
                    · simp only [heq, Nat.lt_irrefl, if_false, if_true, if_pos hpayload, hsame]
                    · simp only [heq, Nat.lt_irrefl, if_false, if_true, if_neg hpayload]
                  · simp only [if_neg (Nat.lt_asymm hgt), if_neg (Nat.ne_of_gt hgt), if_pos hgt]

/-- `call` leaves the archives as they are. -/
theorem sameArchives_call (s : Session) (d : Delivery) :
    SameArchives (Filing.reached (call d) s) s := by
  rw [Filing.reached, call_eq]
  cases hd : s.collect d with
  | ok t => exact sameArchives_of_collect hd
  | error e => exact .refl s

/-- Calls one after the other, whether they are refused or not. -/
def callEach (s : Session) (ds : List Delivery) : Session :=
  ds.foldl (fun t d => Filing.reached (call d) t) s

theorem sameArchives_callEach (s : Session) (ds : List Delivery) :
    SameArchives (s.callEach ds) s := by
  induction ds generalizing s with
  | nil => exact .refl s
  | cons d ds ih => exact (ih (Filing.reached (call d) s)).trans (sameArchives_call s d)

/-! ### What is in a slot -/

theorem stored?_eq (s : Session) (slot : Slot) :
    s.stored? slot = (s.payloadsOf slot.parts slot.type).get? slot.name := by
  unfold stored? payloadsOf
  cases s.values.get? (slot.parts, slot.type) <;> rfl

theorem stored?_hold (s : Session) (source : ResourceFile) (name : ResourceName) (payload : Bytes)
    (slot : Slot) :
    (s.hold source name payload).stored? slot =
      if Slot.ofDeclaration source name = slot then some payload else s.stored? slot := by
  obtain ⟨parts, type, key⟩ := slot
  have hslot : Slot.ofDeclaration source name = ⟨parts, type, key⟩ ↔
      (source.path.components, name.type) = (parts, type) ∧ name.text = key := by
    simp [Slot.ofDeclaration, and_assoc]
  rw [stored?_eq, stored?_eq, payloadsOf_hold]
  by_cases hkey : (source.path.components, name.type) = (parts, type)
  · rw [if_pos hkey, Table.get?_insert]
    simp only [hslot, hkey, true_and]
  · rw [if_neg hkey, if_neg fun h => hkey (hslot.1 h).1]

/-- `offer` leaves in the slot of a declaration that is not dropped what is to `keep`, and nothing
else. That is so too if it is refused. -/
theorem reached_offer (s : Session) (source : ResourceFile) (name : ResourceName)
    (payload : Bytes) :
    Filing.reached (offer source name payload) s =
      if s.drops name then s
      else s.hold source name (keep (s.stored? (.ofDeclaration source name)) payload) := by
  rw [Filing.reached, offer_eq]
  cases hdrops : s.drops name with
  | true => rfl
  | false =>
      simp only [Bool.false_eq_true, if_false]
      cases hstored : s.stored? (.ofDeclaration source name) with
      | none => rfl
      | some kept =>
          have hsame := hold_of_stored hstored
          simp only [keep]
          rcases Nat.lt_trichotomy payload.length kept.length with hlt | heq | hgt
          · simp only [if_pos hlt, if_neg (Nat.lt_asymm hlt), hsame]
          · simp only [heq, Nat.lt_irrefl, if_false, if_true, hsame]
            by_cases hpayload : kept = payload
            · rw [if_pos hpayload]
            · rw [if_neg hpayload]
          · simp only [if_neg (Nat.lt_asymm hgt), if_neg (Nat.ne_of_gt hgt), if_pos hgt]

end Session

/-- The payload that a delivery offers for a slot, if a session does not drop it. -/
def Delivery.offered? (s : Session) (slot : Slot) : Delivery → Option Bytes
  | .collected source (.value name payload) =>
    if s.drops name = false ∧ Slot.ofDeclaration source name = slot then some payload else none
  | _ => none

namespace Session

/-- `offered?` depends on the archives alone. -/
theorem SameArchives.offered? {s r : Session} (h : SameArchives s r) (slot : Slot) :
    Delivery.offered? s slot = Delivery.offered? r slot := by
  funext d
  unfold Delivery.offered?
  split
  · rw [h.drops]
  · rfl

/-- What `call` leaves in a slot. -/
theorem stored?_call (s : Session) (d : Delivery) (slot : Slot) :
    (Filing.reached (call d) s).stored? slot =
      match d.offered? s slot with
      | none => s.stored? slot
      | some payload => some (keep (s.stored? slot) payload) := by
  cases d with
  | file file =>
      show (s.collectFile file).stored? slot = s.stored? slot
      unfold collectFile
      split <;> rfl
  | collected source item =>
      cases item with
      | rootAttribute attr => rfl
      | value name payload =>
          rw [call, reached_offer, Delivery.offered?]
          cases hdrops : s.drops name with
          | true => simp
          | false =>
              simp only [Bool.false_eq_true, if_false, true_and, stored?_hold]
              split
              · rename_i hslot
                rw [hslot]
              · rfl

/-- After any calls `stored?` is the `FirstOfLongest` payload that was offered for the slot, what
was stored before included. -/
theorem firstOfLongest_callEach {slot : Slot} {seen : List Bytes} {s : Session}
    (h : FirstOfLongest seen (s.stored? slot)) (ds : List Delivery) :
    FirstOfLongest (seen ++ ds.filterMap (Delivery.offered? s slot))
      ((s.callEach ds).stored? slot) := by
  induction ds generalizing s seen with
  | nil => simpa [callEach] using h
  | cons d ds ih =>
      have hcall := stored?_call s d slot
      have hrest : (s.callEach (d :: ds)) = (Filing.reached (call d) s).callEach ds := rfl
      rw [hrest, ← (sameArchives_call s d).offered? slot]
      rw [← (sameArchives_call s d).offered? slot] at hcall
      cases hoffered : Delivery.offered? (Filing.reached (call d) s) slot d with
      | none =>
          rw [hoffered] at hcall
          rw [List.filterMap_cons_none hoffered]
          exact ih (hcall ▸ h)
      | some payload =>
          rw [hoffered] at hcall
          rw [List.filterMap_cons_some hoffered, List.append_cons]
          exact ih (hcall ▸ h.keep payload)

/-- What a session holds that a declaration does not touch, whatever becomes of it: all other slots,
the files, the root attributes and the archives. -/
structure OnlyAt (slot : Slot) (s t : Session) : Prop where
  /-- All other slots. -/
  stored : ∀ other, other ≠ slot → t.stored? other = s.stored? other
  /-- The files that are resources. -/
  files : t.files = s.files
  /-- The root attributes. -/
  rootAttributes : t.rootAttributes = s.rootAttributes
  /-- The archives. -/
  archives : SameArchives t s

theorem onlyAt_offer (s : Session) (source : ResourceFile) (name : ResourceName)
    (payload : Bytes) :
    OnlyAt (.ofDeclaration source name) s (Filing.reached (offer source name payload) s) := by
  rw [reached_offer]
  cases s.drops name with
  | true => exact ⟨fun _ _ => rfl, rfl, rfl, .refl s⟩
  | false =>
      refine ⟨fun other hother => ?_, rfl, rfl, ⟨rfl, rfl, rfl, rfl, rfl⟩⟩
      rw [if_neg (by decide), stored?_hold, if_neg (Ne.symm hother)]

/-- `offer` refuses a declaration where another payload of its length is stored, and for no other
reason. -/
theorem offer_eq_error_iff {s t : Session} {source : ResourceFile} {name : ResourceName}
    {payload : Bytes} {e : Error} (haccepted : s.drops name = false) :
    offer source name payload s = .error e t ↔
      e = .valueConflict name.text ∧ t = s ∧
        ∃ kept, s.stored? (.ofDeclaration source name) = some kept ∧
          kept.length = payload.length ∧ kept ≠ payload := by
  rw [offer_eq, haccepted]
  cases hstored : s.stored? (.ofDeclaration source name) with
  | none => simp
  | some kept =>
      rcases Nat.lt_trichotomy payload.length kept.length with hlt | heq | hgt
      · simp [hlt, Nat.ne_of_gt hlt]
      · by_cases hpayload : kept = payload
        · simp [heq, hpayload]
        · have hne : payload ≠ kept := fun heq => hpayload heq.symm
          simp [heq, hpayload, hne, eq_comm]
      · simp [Nat.lt_asymm hgt, Nat.ne_of_gt hgt, Nat.ne_of_lt hgt]

/-- **Which of several declarations of one name in one file is kept.** After any calls `stored?` is
the `FirstOfLongest` of the payloads that were offered for the slot, whether some of them were
refused or not; what was stored before counts as offered first. `offer` refuses the next payload
exactly if it has the length of the stored one and is another one, and then the session is as it
was, to the last part. It touches no slot but its own, no files and no root attributes. -/
theorem offer_conflictRule (s : Session) (ds : List Delivery) (source : ResourceFile)
    (name : ResourceName) (haccepted : s.drops name = false) :
    let slot := Slot.ofDeclaration source name
    let t := s.callEach ds
    FirstOfLongest ((s.stored? slot).toList ++ ds.filterMap (Delivery.offered? s slot))
        (t.stored? slot) ∧
      (∀ payload e u, offer source name payload t = .error e u ↔
        e = .valueConflict name.text ∧ u = t ∧
          ∃ kept, t.stored? slot = some kept ∧ kept.length = payload.length ∧ kept ≠ payload) ∧
      ∀ source' name' payload', OnlyAt (.ofDeclaration source' name') t
        (Filing.reached (offer source' name' payload') t) := by
  intro slot t
  have hfirst : FirstOfLongest (s.stored? slot).toList (s.stored? slot) := by
    cases s.stored? slot with
    | none => rfl
    | some kept => exact ⟨[], [], rfl, by simp, by simp⟩
  have haccepted' : t.drops name = false :=
    ((sameArchives_callEach s ds).drops name).trans haccepted
  exact ⟨firstOfLongest_callEach hfirst ds, fun payload e u => offer_eq_error_iff haccepted',
    fun source' name' payload' => onlyAt_offer t source' name' payload'⟩

/-- The file of the declarations below. -/
def disputedSource : ResourceFile :=
  ⟨.ofString "res/values/a.xml", .ofString "res", "values", .values, "", {}⟩

/-- What they declare. -/
def disputedName : ResourceName :=
  ⟨ResourceName.defaultPackage, .string, "a"⟩

/-- A short declaration, two longer ones of one length and a short one again, with a file and a root
attribute between them. -/
def disputing : List Delivery :=
  [.collected disputedSource (.value disputedName [1]), .file disputedSource,
    .collected disputedSource (.value disputedName [2, 2]),
    .collected disputedSource (.rootAttribute ⟨.plain "b", ""⟩),
    .collected disputedSource (.value disputedName [3, 3]),
    .collected disputedSource (.value disputedName [4])]

/-- The session that they are offered to. -/
def disputedSession : Session where
  outputs := [(.string, [[]])]
  sharder := .fnv

/-- The first of the two longer ones is kept, and a third one of their length is refused. -/
theorem offer_conflictRule_disputed :
    disputedSession.drops disputedName = false ∧
      FirstOfLongest [[1], [2, 2], [3, 3], [4]] ((disputedSession.callEach disputing).stored?
        (.ofDeclaration disputedSource disputedName)) ∧
      offer disputedSource disputedName [5, 5] (disputedSession.callEach disputing) =
        .error (.valueConflict disputedName.text) (disputedSession.callEach disputing) := by
  have haccepted : disputedSession.drops disputedName = false := by decide
  have hstored : (disputedSession.callEach disputing).stored?
      (.ofDeclaration disputedSource disputedName) = some [2, 2] := by
    decide +kernel
  have hoffers : (disputedSession.stored? (.ofDeclaration disputedSource disputedName)).toList ++
      disputing.filterMap (Delivery.offered? disputedSession
        (.ofDeclaration disputedSource disputedName)) = [[1], [2, 2], [3, 3], [4]] := by
    decide +kernel
  have hrule := offer_conflictRule disputedSession disputing disputedSource disputedName haccepted
  refine ⟨haccepted, hoffers ▸ hrule.1, ?_⟩
  exact (hrule.2.1 [5, 5] _ _).2 ⟨rfl, rfl, [2, 2], hstored, rfl, by decide⟩

end Session

end ResourceShards
