/-
What is posted arrives, once and in order.

A message is posted as a text, and whoever the message is for reads it from the text (`readFor_write`); the other side
refuses it and says of which kind it was. Posts and drains of the two sides come in any order. What is on its way to a
side is what the other side posted since the last drain (`waiting_after`), so each drain hands over what was posted
since the one before, and all of them together everything that was posted before the last. Main result:
`delivered_in_order`.
-/
import LiveMarkup.Proofs.Json.ReadBack
import LiveMarkup.Wire.Channel
import Mathlib.Data.List.DropRight
import Mathlib.Data.List.Induction

set_option autoImplicit false

namespace LiveMarkup.Wire

/-! ## Messages as texts -/

/-- The names of the fields of a kind. -/
def Kind.fieldNames : Kind → List String
  | init => ["sessionId", "settings"]
  | ready => ["sessionId"]
  | render => ["canonicalHtml", "cssText", "shadowMode", "highlight"]
  | setCss => ["cssText"]
  | setHighlight => ["highlight"]
  | runScript => ["scriptText"]
  | disableScript => []
  | externalScripts => ["urls"]
  | select => ["token"]

/-- No kind has two fields of one name, or a field called as the tag is. -/
theorem Kind.nodup_fieldNames (k : Kind) : ("type" :: k.fieldNames).Nodup := by
  cases k <;> decide

theorem allPlain_texts (texts : List String) : Json.allPlain (texts.map .string) = true := by
  induction texts with
  | nil => rfl
  | cons text texts ih => rw [List.map_cons, Json.allPlain, ih]; rfl

theorem depthOfItems_texts (texts : List String) : depthOfItems (texts.map .string) = 0 := by
  induction texts with
  | nil => rfl
  | cons text texts ih => rw [List.map_cons, depthOfItems, ih]; rfl

theorem list?_texts (texts : List String) : Json.list? Json.text? (Json.ofList texts .string) = some texts := by
  rw [Json.ofList, Json.list?]
  induction texts with
  | nil => rfl
  | cons text texts ih => rw [List.map_cons, List.mapM_cons, ih]; rfl

namespace Settings

theorem ofJson?_toJson (s : Settings) : ofJson? s.toJson = some s := by
  have hnames : names.Nodup := by decide
  rw [ofJson?, toJson, Json.fields?_object (by exact hnames)]
  rfl

end Settings

namespace Message

theorem names_payload (m : Message) : m.payload.map (·.1) = m.kind.fieldNames := by cases m <;> rfl

theorem isPlain_toJson (m : Message) : m.toJson.isPlain = true := by
  cases m with
  | externalScripts urls =>
    simp only [toJson, payload, Json.isPlain, Json.allMembersPlain, Json.ofList, allPlain_texts, Bool.and_self]
  | _ => rfl

/-- A message holds at most a record or a list. -/
theorem depth_toJson (m : Message) : m.toJson.depth ≤ 2 := by
  cases m with
  | externalScripts urls =>
    simp only [toJson, payload, Json.depth, depthOfMembers, Json.ofList, depthOfItems_texts]
    decide
  | _ => exact Nat.le_of_ble_eq_true rfl

theorem fields?_toJson (m : Message) (names : List String) :
    m.toJson.fields? names =
      some (names.map fun name => List.lookup name (("type", .string m.kind.name) :: m.payload)) := by
  refine Json.fields?_object ?_ names
  rw [List.map_cons, names_payload]
  exact m.kind.nodup_fieldNames

theorem tagged?_toJson (m : Message) : tagged? m.toJson = some (m.kind, m.toJson) := by
  have hname : List.lookup "type" (("type", Json.string m.kind.name) :: m.payload) = some (.string m.kind.name) := by
    rw [List.lookup_cons_self]
  have hfields := m.fields?_toJson ["type"]
  rw [List.map_cons, hname] at hfields
  change (m.toJson.fields? ["type"]).bind _ = _
  rw [hfields]
  change (Kind.ofName? m.kind.name).bind _ = _
  rw [Kind.ofName?_name]
  rfl

/-- A message is made again of its fields. -/
theorem ofFields?_toJson (m : Message) : ofFields? m.kind m.toJson = some m := by
  unfold ofFields?
  cases m with
  | init session settings =>
    simp [kind, fields?_toJson, payload, List.lookup_cons, Settings.ofJson?_toJson, Json.text?]
  | externalScripts urls =>
    simp [kind, fields?_toJson, payload, List.lookup_cons, list?_texts]
  | _ =>
    simp only [kind, fields?_toJson]
    rfl

/-- **A message is read from its text.** -/
theorem read_write (m : Message) : read m.write = .ok m := by
  have hplain := m.isPlain_toJson
  have hdepth : m.toJson.depth ≤ maxDepth := Nat.le_trans m.depth_toJson (by decide)
  have hread : read? m.write = some m := by
    rw [read?, write, Json.parse?_compact hplain]
    simp [Json.isReadable_of_isPlain _ hplain, hdepth, ofJson?, tagged?_toJson, ofFields?_toJson]
  rw [read, hread]

/-- **The receiver of a message reads it from its text, and the sender would refuse it.** -/
theorem readFor_write (m : Message) (d : Direction) :
    readFor d m.write = if m.direction = d then .ok m else .error (.wrongDirection m.kind d) := by
  rw [readFor, read_write]
  rfl

end Message

/-! ## Calls -/

/-- What a side can do with a channel. -/
inductive Call where
  | post (m : Message)
  | postTo (m : Message) (target : String)
  | postText (data target : String)
  | drain
deriving DecidableEq, Repr

/-- The calls of both sides, in the order in which they are made. -/
abbrev Calls := List (Side × Call)

namespace Channel

/-- What a call of a side hands over, and the channel after it. -/
def call (c : Channel) (side : Side) : Call → List Envelope × Channel
  | .post m => ([], c.post side m)
  | .postTo m target => ([], c.postTo side m target)
  | .postText data target => ([], c.postText side data target)
  | .drain => c.drain side

/-- A channel after calls. -/
def after (c : Channel) (calls : Calls) : Channel := calls.foldl (fun c (side, call) => (c.call side call).2) c

/-- What the drains of a side hand over, one drain after the other. -/
def delivered (c : Channel) (side : Side) : Calls → List Envelope
  | [] => []
  | (s, call) :: calls => (if s = side then (c.call s call).1 else []) ++ (c.call s call).2.delivered side calls

/-- The packet that a side posts with a call. -/
def packet? (c : Channel) (side : Side) (x : Side × Call) : Option Packet :=
  if x.1 = side then
    match x.2 with
    | .post m => some ⟨c.origin side, c.origin side.other, m.write⟩
    | .postTo m target => some ⟨c.origin side, target, m.write⟩
    | .postText data target => some ⟨c.origin side, target, data⟩
    | .drain => none
  else none

/-- The packets that a side posts, in order. -/
def posted (c : Channel) (side : Side) (calls : Calls) : List Packet := calls.filterMap (c.packet? side)

variable (c : Channel) (side : Side) (calls : Calls) (x : Side × Call)

/-! ## What is on its way -/

theorem after_append : c.after (calls ++ [x]) = ((c.after calls).call x.1 x.2).2 :=
  List.foldl_concat ..

theorem delivered_append :
    c.delivered side (calls ++ [x]) =
      c.delivered side calls ++ if x.1 = side then ((c.after calls).call x.1 x.2).1 else [] := by
  induction calls generalizing c with
  | nil => rw [List.nil_append, delivered, delivered, delivered, List.append_nil]; rfl
  | cons y calls ih => rw [List.cons_append, delivered, delivered, ih, List.append_assoc]; rfl

theorem posted_append : c.posted side (calls ++ [x]) = c.posted side calls ++ (c.packet? side x).toList := by
  rw [posted, List.filterMap_append]
  cases h : c.packet? side x <;> simp [posted, h]

/-- The origins of the windows stay. -/
theorem origin_after : (c.after calls).origin = c.origin := by
  induction calls using List.reverseRecOn with
  | nil => rfl
  | append_singleton calls x ih =>
    rw [after_append, ← ih]
    cases x.2 <;> rfl

theorem packet?_after : (c.after calls).packet? = c.packet? := by
  funext side x
  unfold packet?
  rw [origin_after]

theorem receive?_after : (c.after calls).receive? = c.receive? := by
  funext side p
  unfold receive?
  rw [origin_after]

theorem waiting_postText (s : Side) (data target : String) :
    (c.postText s data target).waiting side =
      c.waiting side ++ if s = side.other then [⟨c.origin side.other, target, data⟩] else [] := by
  cases s <;> cases side <;> simp [postText, setWaiting, Side.other]

/-- A drain takes everything that is on its way to a side; what the other side posts is put behind it. -/
theorem waiting_call :
    (c.call x.1 x.2).2.waiting side =
      if x = (side, .drain) then [] else c.waiting side ++ (c.packet? side.other x).toList := by
  obtain ⟨s, call⟩ := x
  unfold packet?
  cases call with
  | drain =>
    by_cases hs : s = side
    · simp [Channel.call, drain, setWaiting, hs]
    · simp [Channel.call, drain, setWaiting, hs, Ne.symm hs]
  | post m =>
    by_cases hs : s = side.other
    · simp [Channel.call, post, postTo, waiting_postText, hs, target]
    · simp [Channel.call, post, postTo, waiting_postText, hs]
  | postTo m target =>
    by_cases hs : s = side.other
    · simp [Channel.call, postTo, waiting_postText, hs]
    · simp [Channel.call, postTo, waiting_postText, hs]
  | postText data target =>
    by_cases hs : s = side.other
    · simp [Channel.call, waiting_postText, hs]
    · simp [Channel.call, waiting_postText, hs]

/-! ## What is handed over -/

/-- The calls up to the last drain of a side. -/
def upToDrain (side : Side) (calls : Calls) : Calls := calls.rdropWhile (· ≠ (side, .drain))

/-- The calls since the last drain of a side. -/
def sinceDrain (side : Side) (calls : Calls) : Calls := calls.rtakeWhile (· ≠ (side, .drain))

theorem upToDrain_append :
    upToDrain side (calls ++ [x]) = if x = (side, .drain) then calls ++ [x] else upToDrain side calls := by
  rw [upToDrain, List.rdropWhile_concat]
  by_cases hdrain : x = (side, .drain) <;> simp [hdrain, upToDrain]

theorem sinceDrain_append :
    sinceDrain side (calls ++ [x]) = if x = (side, .drain) then [] else sinceDrain side calls ++ [x] := by
  rw [sinceDrain, List.rtakeWhile_concat]
  by_cases hdrain : x = (side, .drain) <;> simp [hdrain, sinceDrain]

/-- A side posts up to a drain and since then. -/
theorem posted_split (s : Side) :
    c.posted s calls = c.posted s (upToDrain side calls) ++ c.posted s (sinceDrain side calls) := by
  have hsplit : upToDrain side calls ++ sinceDrain side calls = calls := List.rdropWhile_append_rtakeWhile
  rw [posted, posted, posted, ← List.filterMap_append, hsplit]

/-- What is on its way to a side was posted since its last drain. -/
theorem waiting_after (hempty : c.waiting side = []) :
    (c.after calls).waiting side = c.posted side.other (sinceDrain side calls) := by
  induction calls using List.reverseRecOn with
  | nil => exact hempty
  | append_singleton calls x ih =>
    rw [after_append, waiting_call, packet?_after, sinceDrain_append, ih]
    by_cases hdrain : x = (side, .drain)
    · rw [if_pos hdrain, if_pos hdrain]
      rfl
    · rw [if_neg hdrain, if_neg hdrain, posted_append]

/-- A call that is no drain of a side hands it nothing. -/
theorem call_of_not_drain (h : x ≠ (side, .drain)) :
    (if x.1 = side then (c.call x.1 x.2).1 else []) = [] := by
  obtain ⟨s, call⟩ := x
  by_cases hs : s = side
  · cases call with
    | drain => exact absurd (by rw [hs]) h
    | _ => exact if_pos hs
  · exact if_neg hs

/-- **What a side was handed over is what the other side posted before its last drain**, as far as the side receives
it. -/
theorem delivered_eq (hempty : c.waiting side = []) :
    c.delivered side calls = (c.posted side.other (upToDrain side calls)).filterMap (c.receive? side) := by
  induction calls using List.reverseRecOn with
  | nil => rfl
  | append_singleton calls x ih =>
    rw [delivered_append, ih, upToDrain_append]
    by_cases hdrain : x = (side, .drain)
    · -- the drain hands over what was posted since the one before, and posts nothing itself
      have hnew : ((c.after calls).call x.1 x.2).1 =
          (c.posted side.other (sinceDrain side calls)).filterMap (c.receive? side) := by
        rw [hdrain, ← waiting_after c side calls hempty, ← receive?_after c calls]
        rfl
      have hposted : c.packet? side.other x = none := by
        rw [hdrain]
        exact ite_self none
      rw [if_pos hdrain, if_pos (by rw [hdrain]), hnew, posted_append, hposted, ← List.filterMap_append,
        ← posted_split, Option.toList_none, List.append_nil]
    · rw [if_neg hdrain, call_of_not_drain _ _ _ hdrain, List.append_nil]

theorem origin_of_posted {p : Packet} (hp : p ∈ c.posted side calls) : p.origin = c.origin side := by
  obtain ⟨x, -, hx⟩ := List.mem_filterMap.1 hp
  unfold packet? at hx
  by_cases hs : x.1 = side
  · rw [if_pos hs] at hx
    cases hcall : x.2 <;> rw [hcall] at hx <;> cases hx <;> rfl
  · rw [if_neg hs] at hx
    cases hx

end Channel

/-- **The channel loses nothing, keeps the order, and checks who a message is for.** Every message is read from its text
by the side that it is for, and refused by the other. Whatever the two sides do, in whatever order, all that a side was
handed over is: of the packets that the other side posted before the last drain, in order and each once, those that are
addressed to it or to any origin and hold a message for it, with the origin of the sender. -/
theorem delivered_in_order (editorOrigin previewOrigin : String) :
    (∀ m : Message, Message.read m.write = .ok m) ∧
      (∀ (m : Message) (d : Direction), Message.readFor d m.write =
        if m.direction = d then .ok m else .error (.wrongDirection m.kind d)) ∧
      ∀ (side : Side) (calls : Calls),
        let c := Channel.between editorOrigin previewOrigin
        c.delivered side calls = (c.posted side.other (Channel.upToDrain side calls)).filterMap fun p =>
          if p.target = "*" ∨ p.target = c.origin side then
            match Message.readFor side.accepts p.data with
            | .ok m => some ⟨c.origin side.other, m⟩
            | .error _ => none
          else none := by
  refine ⟨Message.read_write, Message.readFor_write, ?_⟩
  intro side calls c
  rw [Channel.delivered_eq c side calls rfl]
  refine List.filterMap_congr fun p hp => ?_
  rw [Channel.receive?, c.origin_of_posted side.other _ hp]
  rfl

end LiveMarkup.Wire
