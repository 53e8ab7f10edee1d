import Unirc.Parse
import Unirc.RemoteJoin
import Unirc.SjoinConvergence

/-!
# BMASK

`ms_bmask` of `m_mode.c` adds the masks of a line one by one. `add_id` writes the mask it has
made back to where it read it, so a mask that gets longer runs over the one behind it.
-/

namespace Unirc

/-- The mask is not skipped. -/
def bmaskTaken (m : Str) : Prop := m ≠ [] ∧ m.head? ≠ some ':'

instance (m : Str) : Decidable (bmaskTaken m) := by
  unfold bmaskTaken
  infer_instance

/-- What is left at `t` when `add_id` has written past the end of the mask. -/
def bmaskOverrun (m : Str) : Option Str :=
  if bmaskTaken m ∧ m.length < (Ban.parse m).text.length then
    some ((Ban.parse m).text.drop (m.length + 1))
  else none

def bmaskType (s : Str) : Option BanType :=
  if s.head? = some 'b' then some .ban
  else if s.head? = some 'e' then some .exception
  else if s.head? = some 'I' then some .invex
  else none

namespace Server

variable (cfg : Config) (a c : ℕ) (type : BanType)

def bmaskMask (s : Server) (m : Str) : Server :=
  if bmaskTaken m then (s.addId cfg a c m type).1 else s

/-- The loop of `ms_bmask` over the masks between the blanks. -/
def bmaskLoop (s : Server) : List Str → Server
  | [] => s
  | m :: ms =>
      if MODEBUFLEN < m.length then s
      else
        let s' := s.bmaskMask cfg a c type m
        match ms, bmaskOverrun m with
        | _ :: _, some m' =>
            if MODEBUFLEN < m'.length then s' else s'.bmaskMask cfg a c type m'
        | ms, _ => bmaskLoop s' ms

/-- `ms_bmask` for the parameters behind the sender. -/
def msBmask (s : Server) : List Str → Server
  | ts :: chname :: type :: masks :: _ =>
      match s.hashFindChannel chname, bmaskType type with
      | some c, some type =>
          if (s.channel? c).any fun ch => ch.channelts < Decimal.atol ts then s
          else s.bmaskLoop cfg a c type ((masks.take (IRCD_BUFSIZE - 1)).splitOn ' ')
      | _, _ => s
  | _ => s

end Server

/-- A mask that is read back as it was sent. -/
def Ban.Carried (b : Ban) : Prop := b.name ≠ [] ∧ b.name.head? ≠ some ':'

instance : DecidablePred Ban.Carried := fun b => by
  unfold Ban.Carried
  infer_instance

/-- The entry is one that `add_id` makes. -/
def Ban.Made (b : Ban) : Prop := ∃ mask, b = Ban.parse mask

theorem Ban.Made.measured {b : Ban} (h : b.Made) : b.Measured := by
  obtain ⟨mask, rfl⟩ := h
  rfl

section Masks

theorem cutAt_eq_some {c : Char} {s x y : Str} (h : cutAt c s = some (x, y)) :
    s = x ++ c :: y ∧ c ∉ x := by
  unfold cutAt at h
  split at h
  · cases h
  · rename_i d rest hdrop
    cases h
    have hd : d = c := by
      have hne : s.dropWhile (fun x => decide (x ≠ c)) ≠ [] := by rw [hdrop]; simp
      have hhead := List.head_dropWhile_not (fun x => decide (x ≠ c)) hne
      simp only [hdrop, List.head_cons] at hhead
      simpa using hhead
    refine ⟨?_, fun hmem => ?_⟩
    · rw [← hd, ← hdrop, hd]
      exact (List.takeWhile_append_dropWhile).symm
    · simpa using List.mem_takeWhile_imp hmem

theorem cutAt_eq_none {c : Char} {s : Str} (h : cutAt c s = none) : c ∉ s := by
  unfold cutAt at h
  split at h
  · rename_i hdrop
    intro hmem
    have := List.dropWhile_eq_nil_iff.mp hdrop c hmem
    simp at this
  · cases h

theorem cutAt_append {c : Char} {x : Str} (h : c ∉ x) (y : Str) :
    cutAt c (x ++ c :: y) = some (x, y) := by
  have hx : ∀ d ∈ x, decide (d ≠ c) = true := fun d hd => by
    simp only [ne_eq, decide_not, Bool.not_eq_eq_eq_not, Bool.not_true, decide_eq_false_iff_not]
    rintro rfl
    exact h hd
  unfold cutAt
  rw [List.dropWhile_append_of_pos hx, List.takeWhile_append_of_pos hx]
  simp

theorem nuhPart_ne_nil {n : ℕ} (hn : 0 < n) (s : Str) : nuhPart n s ≠ [] := by
  unfold nuhPart
  split
  · exact List.cons_ne_nil _ _
  · rename_i h
    intro htake
    rcases List.take_eq_nil_iff.mp htake with h' | h'
    · exact absurd h' hn.ne'
    · exact h h'

theorem nuhPart_length {n : ℕ} (hn : 0 < n) (s : Str) : (nuhPart n s).length ≤ n := by
  unfold nuhPart
  split
  · exact hn
  · exact List.length_take_le n s

theorem nuhPart_of_le {n : ℕ} {s : Str} (hs : s ≠ []) (hlen : s.length ≤ n) : nuhPart n s = s := by
  rw [nuhPart, if_neg hs, List.take_of_length_le hlen]

theorem mem_nuhPart {n : ℕ} {s : Str} {c : Char} (h : c ∈ nuhPart n s) : c ∈ s ∨ c = '*' := by
  unfold nuhPart at h
  split at h
  · exact Or.inr (List.mem_singleton.mp h)
  · exact Or.inl (List.mem_of_mem_take h)

theorem not_mem_nuhPart {n : ℕ} {s : Str} {c : Char} (h : c ∉ s) (hc : c ≠ '*') :
    c ∉ nuhPart n s := fun hmem => (mem_nuhPart hmem).elim h hc

/-- The parts of a mask as `split_nuh` leaves them. -/
structure NuhParts (m name user host : Str) : Prop where
  name_bang : '!' ∉ name
  name_length : name.length ≤ NICKLEN - 1
  user_ne : user ≠ []
  user_at : '@' ∉ user
  user_length : user.length ≤ USERLEN
  host_ne : host ≠ []
  host_length : host.length ≤ HOSTLEN
  chars : ∀ c, c ∈ name ∨ c ∈ user ∨ c ∈ host → c ∈ m ∨ c = '*'

theorem nuhParts_of_nuhPart {m nick user host : Str} (hnick : '!' ∉ nick) (huser : '@' ∉ user)
    (hm : ∀ c, c ∈ nick ∨ c ∈ user ∨ c ∈ host → c ∈ m ∨ c = '*') :
    NuhParts m (nuhPart (NICKLEN - 1) nick) (nuhPart USERLEN user) (nuhPart HOSTLEN host) where
  name_bang := not_mem_nuhPart hnick (by decide)
  name_length := nuhPart_length (by decide) nick
  user_ne := nuhPart_ne_nil (by decide) user
  user_at := not_mem_nuhPart huser (by decide)
  user_length := nuhPart_length (by decide) user
  host_ne := nuhPart_ne_nil (by decide) host
  host_length := nuhPart_length (by decide) host
  chars := by
    rintro c (h | h | h)
    · exact (mem_nuhPart h).elim (fun h => hm c (Or.inl h)) Or.inr
    · exact (mem_nuhPart h).elim (fun h => hm c (Or.inr (Or.inl h))) Or.inr
    · exact (mem_nuhPart h).elim (fun h => hm c (Or.inr (Or.inr h))) Or.inr

theorem nuhParts_splitNuh (m : Str) :
    NuhParts m (splitNuh m).1 (splitNuh m).2.1 (splitNuh m).2.2 := by
  unfold splitNuh
  cases hbang : cutAt '!' m with
  | some p =>
      obtain ⟨nick, rest⟩ := p
      obtain ⟨rfl, hnick⟩ := cutAt_eq_some hbang
      dsimp only
      cases hat : cutAt '@' rest with
      | some q =>
          obtain ⟨user, host⟩ := q
          obtain ⟨rfl, huser⟩ := cutAt_eq_some hat
          refine nuhParts_of_nuhPart hnick huser fun c hc => Or.inl ?_
          simp only [List.mem_append, List.mem_cons]
          tauto
      | none =>
          change NuhParts _ (nuhPart (NICKLEN - 1) nick) (nuhPart USERLEN rest)
            (nuhPart HOSTLEN [])
          refine nuhParts_of_nuhPart hnick (cutAt_eq_none hat) fun c hc => Or.inl ?_
          simp only [List.mem_append, List.mem_cons, List.not_mem_nil] at hc ⊢
          tauto
  | none =>
      have hnobang := cutAt_eq_none hbang
      dsimp only
      cases hat : cutAt '@' m with
      | some q =>
          obtain ⟨user, host⟩ := q
          obtain ⟨rfl, huser⟩ := cutAt_eq_some hat
          change NuhParts _ (nuhPart (NICKLEN - 1) []) (nuhPart USERLEN user) (nuhPart HOSTLEN host)
          refine nuhParts_of_nuhPart List.not_mem_nil huser fun c hc => Or.inl ?_
          simp only [List.mem_append, List.mem_cons, List.not_mem_nil] at hc ⊢
          tauto
      | none =>
          dsimp only
          split
          · rename_i hdots
            have hne : m ≠ [] := by rintro rfl; simp at hdots
            change NuhParts m ['*'] ['*'] (m.take HOSTLEN)
            exact ⟨by decide, by decide, by decide, by decide, by decide,
              fun h => (List.take_eq_nil_iff.mp h).elim (by decide) hne,
              List.length_take_le _ _, fun c hc => by
                rcases hc with h | h | h
                · exact Or.inr (List.mem_singleton.mp h)
                · exact Or.inr (List.mem_singleton.mp h)
                · exact Or.inl (List.mem_of_mem_take h)⟩
          · change NuhParts m (m.take (NICKLEN - 1)) ['*'] ['*']
            exact ⟨fun h => hnobang (List.mem_of_mem_take h), List.length_take_le _ _, by decide,
              by decide, by decide, by decide, by decide, fun c hc => by
                rcases hc with h | h | h
                · exact Or.inl (List.mem_of_mem_take h)
                · exact Or.inr (List.mem_singleton.mp h)
                · exact Or.inr (List.mem_singleton.mp h)⟩

theorem checkString_ne_space (s : Str) : ∀ c ∈ checkString s, Decimal.isSpace c = false := by
  intro c hc
  unfold checkString at hc
  split at hc
  · rw [List.mem_singleton.mp hc]
    decide
  · simpa using List.mem_takeWhile_imp hc

theorem checkString_of_ne_space {s : Str} (hne : s ≠ [])
    (h : ∀ c ∈ s, Decimal.isSpace c = false) : checkString s = s := by
  rw [checkString, if_neg hne, List.takeWhile_eq_self_iff]
  simpa using h

theorem Ban.Made.parts {b : Ban} (h : b.Made) :
    ∃ m, (∀ c ∈ m, Decimal.isSpace c = false) ∧ NuhParts m b.name b.username b.host := by
  obtain ⟨mask, rfl⟩ := h
  exact ⟨checkString mask, checkString_ne_space mask, nuhParts_splitNuh _⟩

theorem Ban.Made.text_ne_space {b : Ban} (h : b.Made) :
    ∀ c ∈ b.text, Decimal.isSpace c = false := by
  obtain ⟨m, hspace, hparts⟩ := h.parts
  have hstar : Decimal.isSpace '*' = false := by decide
  have hpart : ∀ c, c ∈ b.name ∨ c ∈ b.username ∨ c ∈ b.host → Decimal.isSpace c = false := by
    intro c hc
    rcases hparts.chars c hc with h | rfl
    · exact hspace c h
    · exact hstar
  intro c hc
  simp only [Ban.text, List.mem_append, List.mem_cons] at hc
  rcases hc with h | rfl | h | rfl | h
  · exact hpart c (Or.inl h)
  · decide
  · exact hpart c (Or.inr (Or.inl h))
  · decide
  · exact hpart c (Or.inr (Or.inr h))

theorem Ban.Made.type_eq {b : Ban} (h : b.Made) : b.type = parseNetmask b.host := by
  obtain ⟨mask, rfl⟩ := h
  rfl

theorem Ban.text_ne_nil (b : Ban) : b.text ≠ [] := by simp [Ban.text]

/-- A mask with a nick part is read back from its text. -/
theorem Ban.Made.parse_text {b : Ban} (h : b.Made) (hname : b.name ≠ []) :
    Ban.parse b.text = b := by
  obtain ⟨m, -, hparts⟩ := h.parts
  have hbang : cutAt '!' b.text = some (b.name, b.username ++ '@' :: b.host) :=
    cutAt_append hparts.name_bang _
  have hat : cutAt '@' (b.username ++ '@' :: b.host) = some (b.username, b.host) :=
    cutAt_append hparts.user_at _
  have hsplit : splitNuh b.text = (b.name, b.username, b.host) := by
    simp only [splitNuh, hbang, hat, nuhPart_of_le hname hparts.name_length,
      nuhPart_of_le hparts.user_ne hparts.user_length,
      nuhPart_of_le hparts.host_ne hparts.host_length]
  unfold Ban.parse
  rw [checkString_of_ne_space b.text_ne_nil h.text_ne_space, hsplit]
  dsimp only
  rw [← h.type_eq, ← Ban.text, ← h.measured]

theorem nuhPart_taken {n : ℕ} (hn : 0 < n) {m s : Str} (h : m.head? ≠ some ':')
    (hs : s = [] ∨ s.head? = m.head?) :
    nuhPart n s ≠ [] ∧ (nuhPart n s).head? ≠ some ':' := by
  refine ⟨nuhPart_ne_nil hn s, ?_⟩
  unfold nuhPart
  split
  · decide
  · rename_i hne
    rw [List.head?_take, if_neg hn.ne', hs.resolve_left hne]
    exact h

theorem splitNuh_taken {m : Str} (h : bmaskTaken m) :
    (splitNuh m).1 ≠ [] ∧ (splitNuh m).1.head? ≠ some ':' := by
  have hstar : (['*'] : Str) ≠ [] ∧ (['*'] : Str).head? ≠ some ':' := by decide
  unfold splitNuh
  cases hbang : cutAt '!' m with
  | some p =>
      obtain ⟨nick, rest⟩ := p
      obtain ⟨rfl, -⟩ := cutAt_eq_some hbang
      have hhead : nick = [] ∨ nick.head? = (nick ++ '!' :: rest).head? := by
        cases nick with
        | nil => exact Or.inl rfl
        | cons c cs => exact Or.inr rfl
      have hnick := nuhPart_taken (show 0 < NICKLEN - 1 by decide) h.2 hhead
      dsimp only
      cases cutAt '@' rest with
      | some q => exact hnick
      | none => exact hnick
  | none =>
      dsimp only
      cases cutAt '@' m with
      | some q => exact hstar
      | none =>
          dsimp only
          split
          · exact hstar
          · have hnick := nuhPart_taken (show 0 < NICKLEN - 1 by decide) h.2 (Or.inr rfl)
            rwa [nuhPart, if_neg h.1] at hnick

/-- What is made of a mask without blanks that is not skipped is carried. -/
theorem Ban.carried_parse {m : Str} (htaken : bmaskTaken m)
    (hspace : ∀ c ∈ m, Decimal.isSpace c = false) : (Ban.parse m).Carried := by
  unfold Ban.parse
  rw [checkString_of_ne_space htaken.1 hspace]
  exact splitNuh_taken htaken

theorem Ban.taken_text {b : Ban} (h : b.Carried) : bmaskTaken b.text := by
  refine ⟨b.text_ne_nil, ?_⟩
  rw [Ban.text, List.head?_append_of_ne_nil _ h.1]
  exact h.2

theorem Ban.Made.length_text {b : Ban} (h : b.Made) : b.text.length ≤ 105 := by
  obtain ⟨m, -, hparts⟩ := h.parts
  have hname := hparts.name_length
  have huser := hparts.user_length
  have hhost := hparts.host_length
  simp only [Ban.text, List.length_append, List.length_cons, NICKLEN, USERLEN, HOSTLEN] at *
  omega

end Masks

namespace Channel

variable (ch : Channel)

@[simp] theorem bans_setBans_self (l : List Ban) (type : BanType) :
    (ch.setBans l type).bans type = l := by cases type <;> rfl

theorem bans_setBans_of_ne {type other : BanType} (h : other ≠ type) (l : List Ban) :
    (ch.setBans l type).bans other = ch.bans other := by
  cases type <;> cases other <;> first | rfl | exact absurd rfl h

@[simp] theorem setBans_setBans (l l' : List Ban) (type : BanType) :
    (ch.setBans l type).setBans l' type = ch.setBans l' type := by cases type <;> rfl

@[simp] theorem setBans_bans (type : BanType) : ch.setBans (ch.bans type) type = ch := by
  cases type <;> rfl

@[simp] theorem chname_setBans (l : List Ban) (type : BanType) :
    (ch.setBans l type).chname = ch.chname := by cases type <;> rfl

@[simp] theorem stamped_setBans (l : List Ban) (type : BanType) :
    (ch.setBans l type).stamped = ch.stamped := by cases type <;> rfl

end Channel

namespace Server

/-- The members of a channel with their status flags. -/
def statusRoster (s : Server) (c : ℕ) : List (ℕ × MemberFlags) :=
  (s.members c).filterMap fun m => (s.graph.links m).map fun r => (r.left, r.label ∩ statusFlags)

/-- The same clients, and the same members with the same status. -/
structure SameMembers (s s' : Server) : Prop where
  client : ∀ a, s'.client? a = s.client? a
  status : ∀ c, s'.statusRoster c = s.statusRoster c

namespace SameMembers

variable {s s' s'' : Server}

theorem refl (s : Server) : SameMembers s s := ⟨fun _ => rfl, fun _ => rfl⟩

theorem trans (h : SameMembers s s') (h' : SameMembers s' s'') : SameMembers s s'' :=
  ⟨fun a => (h'.client a).trans (h.client a), fun c => (h'.status c).trans (h.status c)⟩

theorem foldl {α : Type*} (f : Server → α → Server) (hf : ∀ s x, SameMembers s (f s x))
    (l : List α) (s : Server) : SameMembers s (l.foldl f s) := by
  induction l generalizing s with
  | nil => exact refl s
  | cons x l ih => exact (hf s x).trans (ih (f s x))

theorem updChannel (s : Server) (c : ℕ) (f : Channel → Channel) :
    SameMembers s (s.updChannel c f) := by
  refine ⟨fun _ => rfl, fun d => ?_⟩
  have hmembers : (s.updChannel c f).members d = s.members d := by
    rw [members, (Relabels.updChannel s c f).shape.listed]
    rfl
  rw [Server.statusRoster, hmembers]
  rfl

theorem updFlags (s : Server) (m : ℕ) {f : MemberFlags → MemberFlags}
    (hf : ∀ fl, f fl ∩ statusFlags = fl ∩ statusFlags) : SameMembers s (s.updFlags m f) := by
  refine ⟨fun _ => rfl, fun d => ?_⟩
  have hmembers : (s.updFlags m f).members d = s.members d := by
    rw [members, (Relabels.updFlags s m f).shape.listed]
    rfl
  rw [Server.statusRoster, hmembers]
  refine List.filterMap_congr fun k _ => ?_
  simp only [Server.updFlags, LinkGraph.mapLabel, Function.update_apply]
  split
  · rename_i hk
    subst hk
    rw [Option.map_map]
    exact congrArg (fun g => (s.graph.links k).map g) (funext fun r => by simp [hf])
  · rfl

theorem clearBanCache (s : Server) (c : ℕ) : SameMembers s (s.clearBanCache c) := by
  refine foldl _ (fun t m => ?_) _ s
  split
  · refine updFlags t m fun fl => ?_
    have hdisjoint : ∀ x ∈ statusFlags, x ∉ banCacheFlags := by decide
    ext x
    simp only [Finset.mem_inter, Finset.mem_sdiff]
    exact ⟨fun h => ⟨h.1.1, h.2⟩, fun h => ⟨⟨h.1, hdisjoint x h.2⟩, h.2⟩⟩
  · exact refl t

end SameMembers

theorem channel?_clearBanCache (s : Server) (c d : ℕ) :
    (s.clearBanCache c).channel? d = s.channel? d := by
  unfold clearBanCache
  generalize s.members c = l
  induction l generalizing s with
  | nil => rfl
  | cons m l ih =>
      rw [List.foldl_cons, ih]
      split <;> rfl

variable {cfg : Config} {s : Server} {a c : ℕ} {type : BanType} {source : Client} {ch : Channel}

/-- A mask from another server goes to the head of its list, unless the list has it. -/
theorem channel?_addId (hs : s.client? a = some source) (hmy : source.myClient = false)
    (hch : s.channel? c = some ch) (m : Str) :
    (s.addId cfg a c m type).1.channel? c =
      some (if (ch.bans type).any (Ban.parse m).same then ch
        else ch.setBans (Ban.parse m :: ch.bans type) type) := by
  unfold addId
  rw [hs, hch]
  simp only [hmy, Bool.false_eq_true, false_and, if_false]
  have hclear : (if type = .invex then s else s.clearBanCache c).channel? c = some ch := by
    split
    · exact hch
    · rw [channel?_clearBanCache, hch]
  split
  · exact hclear
  · rw [channel?_updChannel, if_pos rfl, hclear]
    rfl

theorem SameMembers.addId (s : Server) (a c : ℕ) (m : Str) (type : BanType) :
    SameMembers s (s.addId cfg a c m type).1 := by
  unfold Server.addId
  split
  · split
    · exact refl s
    · extract_lets ban t
      have ht : SameMembers s t := by
        dsimp only [t]
        split
        · exact refl s
        · exact clearBanCache s c
      split
      · exact ht
      · exact ht.trans (updChannel t c _)
  · exact refl s

theorem SameModes.addId (s : Server) (a c : ℕ) (m : Str) (type : BanType) :
    SameModes s (s.addId cfg a c m type).1 := by
  unfold Server.addId
  split
  · split
    · exact refl s
    · extract_lets ban t
      have ht : SameModes s t := by
        dsimp only [t]
        split
        · exact refl s
        · exact clearBanCache s c
      split
      · exact ht
      · exact ht.trans (updChannel t c (fun ch => by simp) fun ch => by simp)
  · exact refl s

/-- What holds under every mask that is added holds at the end of the loop. -/
theorem bmaskLoop_induction {P : Server → Prop} {Q : Str → Prop}
    (hstep : ∀ s m, P s → Q m → P (s.bmaskMask cfg a c type m))
    (hover : ∀ m m', Q m → bmaskOverrun m = some m' → Q m') {ms : List Str}
    (hms : ∀ m ∈ ms, Q m) (hs : P s) : P (s.bmaskLoop cfg a c type ms) := by
  induction ms generalizing s with
  | nil => exact hs
  | cons m ms ih =>
      have hm : Q m := hms m List.mem_cons_self
      have hrest := ih (fun x hx => hms x (List.mem_cons_of_mem m hx)) (hstep s m hs hm)
      unfold bmaskLoop
      split
      · exact hs
      · extract_lets s'
        split
        · rename_i m' hm'
          split
          · exact hstep s m hs hm
          · exact hstep _ m' (hstep s m hs hm) (hover m m' hm hm')
        · exact hrest

theorem SameMembers.bmaskMask (s : Server) (m : Str) :
    SameMembers s (s.bmaskMask cfg a c type m) := by
  unfold Server.bmaskMask
  split
  · exact addId s a c m type
  · exact refl s

theorem SameModes.bmaskMask (s : Server) (m : Str) :
    SameModes s (s.bmaskMask cfg a c type m) := by
  unfold Server.bmaskMask
  split
  · exact addId s a c m type
  · exact refl s

theorem SameMembers.bmaskLoop (s : Server) (ms : List Str) :
    SameMembers s (s.bmaskLoop cfg a c type ms) :=
  bmaskLoop_induction (Q := fun _ => True) (fun _ m h _ => h.trans (bmaskMask _ m))
    (fun _ _ _ _ => trivial) (fun _ _ => trivial) (refl s)

theorem SameModes.bmaskLoop (s : Server) (ms : List Str) :
    SameModes s (s.bmaskLoop cfg a c type ms) :=
  bmaskLoop_induction (Q := fun _ => True) (fun _ m h _ => h.trans (bmaskMask _ m))
    (fun _ _ _ _ => trivial) (fun _ _ => trivial) (refl s)

/-- Only the list of the masks changes, and only by masks that are carried. -/
structure GrowsCarried (type : BanType) (ch ch' : Channel) : Prop where
  eq : ch' = ch.setBans (ch'.bans type) type
  carried : ∀ b ∈ ch'.bans type, b ∈ ch.bans type ∨ b.Carried

theorem growsCarried_bmaskLoop (hs : s.client? a = some source) (hmy : source.myClient = false)
    (hch : s.channel? c = some ch) {ms : List Str}
    (hms : ∀ m ∈ ms, ∀ x ∈ m, Decimal.isSpace x = false) :
    ∃ ch', (s.bmaskLoop cfg a c type ms).channel? c = some ch' ∧ GrowsCarried type ch ch' := by
  suffices h : (s.bmaskLoop cfg a c type ms).client? a = some source ∧
      ∃ ch', (s.bmaskLoop cfg a c type ms).channel? c = some ch' ∧ GrowsCarried type ch ch' from h.2
  refine bmaskLoop_induction (P := fun t => t.client? a = some source ∧
    ∃ ch', t.channel? c = some ch' ∧ GrowsCarried type ch ch')
    (Q := fun m => ∀ x ∈ m, Decimal.isSpace x = false) ?_ ?_ hms
    ⟨hs, ch, hch, by simp, fun b hb => Or.inl hb⟩
  · rintro t m ⟨ht, ch', hch', hgrows⟩ hm
    refine ⟨((SameMembers.bmaskMask t m).client a).trans ht, ?_⟩
    unfold bmaskMask
    split
    · rename_i htaken
      refine ⟨_, channel?_addId ht hmy hch' m, ?_⟩
      split
      · exact hgrows
      · refine ⟨by rw [hgrows.eq]; simp, fun b hb => ?_⟩
        rw [Channel.bans_setBans_self] at hb
        rcases List.mem_cons.mp hb with rfl | hb
        · exact Or.inr (Ban.carried_parse htaken hm)
        · exact hgrows.carried b hb
    · exact ⟨ch', hch', hgrows⟩
  · intro m m' _ hm' x hx
    unfold bmaskOverrun at hm'
    split at hm'
    · cases hm'
      exact Ban.Made.text_ne_space ⟨m, rfl⟩ x (List.mem_of_mem_drop hx)
    · cases hm'

/-- Masks that are carried and new are all added. -/
theorem channel?_bmaskLoop (hs : s.client? a = some source) (hmy : source.myClient = false)
    (hch : s.channel? c = some ch) {bans : List Ban} (hmade : ∀ b ∈ bans, b.Made ∧ b.Carried)
    (hnew : ∀ b ∈ bans, ∀ b' ∈ ch.bans type, b.same b' = false)
    (hdistinct : bans.Pairwise fun b b' => b'.same b = false) :
    (s.bmaskLoop cfg a c type (bans.map Ban.text)).channel? c =
      some (ch.setBans (bans.reverse ++ ch.bans type) type) := by
  induction bans generalizing s ch with
  | nil => simpa [bmaskLoop] using hch
  | cons b bans ih =>
      obtain ⟨hb, hcarried⟩ := hmade b List.mem_cons_self
      obtain ⟨hfirst, hrest⟩ := List.pairwise_cons.mp hdistinct
      have hparse : Ban.parse b.text = b := hb.parse_text hcarried.1
      have hover : bmaskOverrun b.text = none := by
        rw [bmaskOverrun, if_neg]
        rw [hparse]
        exact fun h => absurd h.2 (Nat.lt_irrefl _)
      have hlen : ¬ MODEBUFLEN < b.text.length := by
        have := hb.length_text
        unfold MODEBUFLEN
        omega
      have hany : (ch.bans type).any b.same = false := by
        rw [List.any_eq_false]
        exact fun b' hb' => by simp [hnew b List.mem_cons_self b' hb']
      have hmask : s.bmaskMask cfg a c type b.text = (s.addId cfg a c b.text type).1 :=
        if_pos (Ban.taken_text hcarried)
      have hadd : (s.addId cfg a c b.text type).1.channel? c = _ :=
        channel?_addId hs hmy hch b.text
      rw [hparse, hany, if_neg Bool.false_ne_true, ← hmask] at hadd
      have hclient : (s.bmaskMask cfg a c type b.text).client? a = some source :=
        ((SameMembers.bmaskMask s b.text).client a).trans hs
      have hloop : s.bmaskLoop cfg a c type ((b :: bans).map Ban.text) =
          (s.bmaskMask cfg a c type b.text).bmaskLoop cfg a c type (bans.map Ban.text) := by
        rw [List.map_cons, bmaskLoop, if_neg hlen, hover]
        cases bans <;> rfl
      rw [hloop, ih hclient hadd (fun x hx => hmade x (List.mem_cons_of_mem b hx)) ?_ hrest]
      · simp
      · intro x hx b' hb'
        rw [Channel.bans_setBans_self] at hb'
        rcases List.mem_cons.mp hb' with rfl | hb'
        · exact hfirst x hx
        · exact hnew x (List.mem_cons_of_mem b hx) b' hb'

end Server

end Unirc
