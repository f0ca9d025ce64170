import ServerHttpLib.Session.Exchanges
import ServerHttpLib.Session.HeaderView

/-!
# The case of header field names

Two header blocks are variants of each other if they differ only in the case of letters in field
names (`CaseVariant`).  The scan of the session does not tell them apart, and neither does a handler
that does not look at the fields (`Server.Blind`).  `process_request` does: it looks for the
spelling `Connection`.

* `variant_scan`          variants announce the same length and expect the same interim response;
* `variant_process`       and are answered alike if `process_request` decides alike;
* `keepsAlive_new`        which depends on the last field spelled `Connection`;
* `writes_ignore_case`    whole conversations without a field that asks to close are the same;
* `ignores_case_iff`      a block is treated like all its variants if and only if no field of the
                          name, in any spelling, has the value `close`.
-/

namespace ServerHttpLib
open Cutting Frames Conn

variable {σ : Type}

/-! ## variants of a header block -/

def unlines (ls : List Bytes) : Bytes := ls.flatMap (· ++ [lf])

/-- the same line, up to the case of the name before its first colon -/
inductive LineVariant : Bytes → Bytes → Prop
  | same (l : Bytes) : LineVariant l l
  | name {n n' : Bytes} (v : Bytes) (hc : ch ':' ∉ n) (hn : n.map asciiLower = n'.map asciiLower) :
      LineVariant (n ++ ch ':' :: v) (n' ++ ch ':' :: v)

/-- the same header block, up to the case of field names -/
def CaseVariant (h h' : Bytes) : Prop :=
  ∃ line ls ls', (∀ l ∈ line :: ls, lf ∉ l) ∧ List.Forall₂ LineVariant ls ls' ∧
    h = unlines (line :: ls) ∧ h' = unlines (line :: ls')

/-- the same field, up to the case of its name -/
def FieldVariant (f f' : Bytes × Bytes) : Prop :=
  f.1.map asciiLower = f'.1.map asciiLower ∧ f.2 = f'.2

/-- what a request is apart from its header fields -/
def RequestIncoming.withoutHeaders (r : RequestIncoming) : RequestIncoming :=
  { r with header := [], headers := .empty }

/-- a handler that does not look at the header fields -/
def BlindHandler (f : Handler σ) : Prop :=
  ∀ r r' w, r.withoutHeaders = r'.withoutHeaders → f r w = f r' w

structure Server.Blind (srv : Server σ) : Prop where
  endpoints : ∀ e ∈ srv.endpoints.entries,
    BlindHandler e.2.1 ∧ ∀ guard, e.2.2 = some guard → BlindHandler guard
  handlers : ∀ e ∈ srv.handlers.entries, BlindHandler e.2

/-- the session treats requests with these header blocks alike: in any two runs it dispatches them
with bodies of the same length, and `process_request` ends in the same state of the session, with
its keep-alive decision and the bytes to send, and has started the same write -/
structure SameTreatment (h h' : Bytes) : Prop where
  body : ∀ (σ : Type) (srv : Server σ) ip w evs evs' c c' b b', run srv ip w evs = some c →
    run srv ip w evs' = some c' → (h, b) ∈ c.dispatched → (h', b') ∈ c'.dispatched →
    b.length = b'.length
  process : ∀ (σ : Type) (srv : Server σ), srv.Blind → ∀ (c : Conn σ) b,
    (processRequest srv h b c).s = (processRequest srv h' b c).s ∧
      (processRequest srv h b c).writes = (processRequest srv h' b c).writes ∧
      (processRequest srv h b c).world = (processRequest srv h' b c).world

def isConnectionName (n : Bytes) : Prop := (svStrip n).map asciiLower = str "connection"

instance : DecidablePred isConnectionName := fun n =>
  inferInstanceAs (Decidable ((svStrip n).map asciiLower = str "connection"))

/-- a `Connection` field, in any spelling, that asks to close -/
def asksToClose (f : Bytes × Bytes) : Prop := isConnectionName f.1 ∧ svStrip f.2 = str "close"

instance : DecidablePred asksToClose := fun f =>
  inferInstanceAs (Decidable (isConnectionName f.1 ∧ svStrip f.2 = str "close"))

/-! ## lines -/

theorem asciiLower_lf (b : UInt8) : asciiLower b = lf ↔ b = lf := by
  revert b
  apply forall_byte
  decide +kernel

theorem lf_map_lower {s : Bytes} : lf ∈ s.map asciiLower ↔ lf ∈ s := by
  rw [List.mem_map]
  constructor
  · rintro ⟨b, hb, he⟩
    exact (asciiLower_lf b).mp he ▸ hb
  · intro h
    exact ⟨lf, h, by decide⟩

theorem LineVariant.lower_eq {l l' : Bytes} (h : LineVariant l l') :
    l.map asciiLower = l'.map asciiLower := by
  cases h with
  | same l => rfl
  | name v _ hn => rw [List.map_append, List.map_append, hn]

theorem LineVariant.nil_iff {l l' : Bytes} (h : LineVariant l l') : l = [] ↔ l' = [] := by
  rw [← List.map_eq_nil_iff (f := asciiLower), h.lower_eq, List.map_eq_nil_iff]

theorem dropCr_field (n v : Bytes) : dropCr (n ++ ch ':' :: v) = n ++ ch ':' :: dropCr v := by
  cases hv : v.getLast? with
  | none =>
    rw [List.getLast?_eq_none_iff.mp hv]
    unfold dropCr
    rw [List.getLast?_concat]
    rfl
  | some b =>
    have hne : v ≠ [] := by
      rintro rfl
      exact absurd hv (by simp)
    have hlast : (n ++ ch ':' :: v).getLast? = some b := by
      rw [show n ++ ch ':' :: v = (n ++ [ch ':']) ++ v by simp, List.getLast?_append, hv]
      rfl
    unfold dropCr
    rw [hlast, hv]
    split
    · rw [List.dropLast_append_of_ne_nil (by simp), List.dropLast_cons_of_ne_nil hne]
    · rfl

theorem LineVariant.dropCr {l l' : Bytes} (h : LineVariant l l') :
    LineVariant (dropCr l) (dropCr l') := by
  cases h with
  | same l => exact .same _
  | name v hc hn =>
    rw [dropCr_field, dropCr_field]
    exact .name _ hc hn

theorem LineVariant.cut {l l' : Bytes} (h : LineVariant l l') :
    (cut [ch ':'] l = none ∧ cut [ch ':'] l' = none) ∨
      ∃ f f', cut [ch ':'] l = some f ∧ cut [ch ':'] l' = some f' ∧ FieldVariant f f' := by
  cases h with
  | same l =>
    cases hc : Cutting.cut [ch ':'] l with
    | none => exact Or.inl ⟨rfl, rfl⟩
    | some f => exact Or.inr ⟨f, f, rfl, rfl, rfl, rfl⟩
  | @name n n' v hc hn =>
    have hc' : ch ':' ∉ n' := by
      rw [← colon_map_lower, ← hn, colon_map_lower]
      exact hc
    exact Or.inr ⟨_, _, cut_of_mem_free hc v, cut_of_mem_free hc' v, hn, rfl⟩

theorem lfLines_unlines {ls : List Bytes} (h : ∀ l ∈ ls, lf ∉ l) : lfLines (unlines ls) = ls := by
  induction ls with
  | nil => rfl
  | cons l ls ih =>
    have e : unlines (l :: ls) = l ++ lf :: unlines ls := by
      rw [unlines, List.flatMap_cons, List.append_assoc]
      rfl
    rw [e, lfLines_append_lf (h l List.mem_cons_self),
      ih fun l' hl' => h l' (List.mem_cons_of_mem _ hl')]

theorem exists_unlines (s : Bytes) :
    ∃ line ls, (∀ l ∈ line :: ls, lf ∉ l) ∧ s ++ [lf] = unlines (line :: ls) := by
  induction s with
  | nil =>
    refine ⟨[], [], fun l hl => ?_, rfl⟩
    rw [List.mem_singleton.mp hl]
    exact List.not_mem_nil
  | cons b s ih =>
    obtain ⟨line, ls, hls, he⟩ := ih
    by_cases hb : b = lf
    · refine ⟨[], line :: ls, fun l hl => ?_, ?_⟩
      · rcases List.mem_cons.mp hl with rfl | hl
        · exact List.not_mem_nil
        · exact hls l hl
      · rw [List.cons_append, he, hb]
        rfl
    · refine ⟨b :: line, ls, fun l hl => ?_, ?_⟩
      · rcases List.mem_cons.mp hl with rfl | hl
        · rw [List.mem_cons, not_or]
          exact ⟨Ne.symm hb, hls line List.mem_cons_self⟩
        · exact hls l (List.mem_cons_of_mem _ hl)
      · rw [List.cons_append, he]
        rfl

theorem unlines_of_blockHead {h : Bytes} (hs : blockHead crlf2 h = some (h, [])) :
    ∃ line ls, (∀ l ∈ line :: ls, lf ∉ l) ∧ h = unlines (line :: ls) := by
  obtain ⟨⟨a, b⟩, -, he⟩ := Option.map_eq_some_iff.mp hs
  rw [Prod.mk.injEq] at he
  obtain ⟨line, ls, hls, hu⟩ := exists_unlines (a ++ [cr, lf, cr])
  refine ⟨line, ls, hls, ?_⟩
  rw [← hu, ← he.1, List.append_assoc]
  rfl

/-! ## fields -/

/-- the fields that `parse_headers` finds in the lines behind the request line -/
def fieldsOf (ls : List Bytes) : List (Bytes × Bytes) :=
  ((ls.map dropCr).takeWhile (· ≠ [])).filterMap (cut [ch ':'])

theorem lf_mem_unlines (line : Bytes) (ls : List Bytes) : lf ∈ unlines (line :: ls) := by
  rw [unlines, List.flatMap_cons]
  exact List.mem_append_left _ (List.mem_append_right _ List.mem_cons_self)

theorem tail_lfLines_unlines {line : Bytes} {ls : List Bytes} (h : ∀ l ∈ line :: ls, lf ∉ l) :
    (lfLines (unlines (line :: ls))).tail = ls := by
  rw [lfLines_unlines h, List.tail_cons]

theorem visibleFields_unlines {line : Bytes} {ls : List Bytes} (h : ∀ l ∈ line :: ls, lf ∉ l) :
    visibleFields (unlines (line :: ls)) = fieldsOf ls := by
  unfold visibleFields visibleLines fieldLines
  rw [tail_lfLines_unlines h]
  rfl

theorem fieldsOf_cons (l : Bytes) (ls : List Bytes) : fieldsOf (l :: ls)
    = if dropCr l = [] then [] else (cut [ch ':'] (dropCr l)).toList ++ fieldsOf ls := by
  unfold fieldsOf
  rw [List.map_cons, List.takeWhile_cons]
  by_cases h0 : dropCr l = []
  · simp [h0]
  · cases hc : cut [ch ':'] (dropCr l) with
    | none => simp [h0, List.filterMap_cons_none hc]
    | some f => simp [h0, List.filterMap_cons_some hc]

theorem variant_fieldsOf {ls ls' : List Bytes} (h : List.Forall₂ LineVariant ls ls') :
    List.Forall₂ FieldVariant (fieldsOf ls) (fieldsOf ls') := by
  induction h with
  | nil => exact .nil
  | @cons l l' ls ls' hl _ ih =>
    rw [fieldsOf_cons, fieldsOf_cons]
    by_cases h0 : dropCr l = []
    · rw [if_pos h0, if_pos (hl.dropCr.nil_iff.mp h0)]
      exact .nil
    · rw [if_neg h0, if_neg fun h => h0 (hl.dropCr.nil_iff.mpr h)]
      rcases hl.dropCr.cut with ⟨hc, hc'⟩ | ⟨f, f', hc, hc', hf⟩
      · rw [hc, hc']
        exact ih
      · rw [hc, hc']
        exact .cons hf ih

theorem svStrip_map_lower (s : Bytes) :
    svStrip (s.map asciiLower) = (svStrip s).map asciiLower := by
  have hb : isBlank ∘ asciiLower = isBlank := funext isBlank_asciiLower
  unfold svStrip List.rdropWhile
  rw [List.dropWhile_map, hb, ← List.map_reverse, List.dropWhile_map, hb, List.map_reverse]

theorem FieldVariant.asksToClose_iff {f f' : Bytes × Bytes} (h : FieldVariant f f') :
    asksToClose f ↔ asksToClose f' := by
  unfold asksToClose isConnectionName
  rw [← svStrip_map_lower, ← svStrip_map_lower, h.1, h.2]

theorem variant_asksToClose {fs fs' : List (Bytes × Bytes)} (h : List.Forall₂ FieldVariant fs fs')
    (hno : ∀ f ∈ fs, ¬ asksToClose f) : ∀ f ∈ fs', ¬ asksToClose f := by
  induction h with
  | nil => exact hno
  | cons hf _ ih =>
    intro x hx
    rcases List.mem_cons.mp hx with rfl | hx
    · rw [← hf.asksToClose_iff]
      exact hno _ List.mem_cons_self
    · exact ih (fun y hy => hno y (List.mem_cons_of_mem _ hy)) x hx

/-! ## the scan of the session -/

theorem LineVariant.scanLine_eq {l l' : Bytes} (h : LineVariant l l') (acc : Nat × Bool) :
    scanLine acc l = scanLine acc l' := by
  have hstart : ∀ lit, ciStartsWith (ServerHttpLib.dropCr l) lit
      = ciStartsWith (ServerHttpLib.dropCr l') lit := by
    intro lit
    have hlow := h.dropCr.lower_eq
    have hlen := congrArg List.length hlow
    rw [List.length_map, List.length_map] at hlen
    unfold ciStartsWith
    rw [hlen, List.map_take, List.map_take, hlow]
  have hdrop : ∀ name, ch ':' ∉ name →
      ciStartsWith (ServerHttpLib.dropCr l) (name ++ [ch ':']) = true →
      (ServerHttpLib.dropCr l).drop (name ++ [ch ':']).length
        = (ServerHttpLib.dropCr l').drop (name ++ [ch ':']).length := by
    intro name hname hs
    obtain ⟨f, hc, hn⟩ := (ciStartsWith_field hname _).mp hs
    rcases h.dropCr.cut with ⟨hc₀, -⟩ | ⟨f₁, f', hc₁, hc', hf⟩
    · rw [hc₀] at hc
      exact absurd hc (by simp)
    · obtain rfl : f₁ = f := by rw [hc₁, Option.some.injEq] at hc; exact hc
      rw [drop_name hc hn, drop_name hc' (hf.1 ▸ hn), hf.2]
  have hlength := hdrop (str "Content-Length") (by decide)
  have hexpect := hdrop (str "Expect") (by decide)
  unfold scanLine
  simp only
  by_cases h0 : ServerHttpLib.dropCr l = []
  · rw [if_pos h0, if_pos (h.dropCr.nil_iff.mp h0)]
  · rw [if_neg h0, if_neg fun h' => h0 (h.dropCr.nil_iff.mpr h'), ← hstart, ← hstart]
    by_cases h1 : ciStartsWith (ServerHttpLib.dropCr l) (str "Content-Length:") = true
    · rw [if_pos h1, if_pos h1]
      exact congrArg (fun v => (lengthValue v, acc.2)) (hlength h1)
    · rw [if_neg h1, if_neg h1]
      by_cases h2 : ciStartsWith (ServerHttpLib.dropCr l) (str "Expect:") = true
      · rw [if_pos h2, if_pos h2]
        exact congrArg (fun v => (acc.1, acc.2 || expectsContinue v)) (hexpect h2)
      · rw [if_neg h2, if_neg h2]

theorem variant_scanLines {ls ls' : List Bytes} (h : List.Forall₂ LineVariant ls ls') :
    scanLines ls = scanLines ls' := by
  unfold scanLines
  generalize ((0, false) : Nat × Bool) = acc
  induction h generalizing acc with
  | nil => rfl
  | cons hl _ ih => rw [List.foldl_cons, List.foldl_cons, hl.scanLine_eq, ih]

theorem LineVariant.lf_iff {l l' : Bytes} (h : LineVariant l l') : lf ∈ l ↔ lf ∈ l' := by
  rw [← lf_map_lower, h.lower_eq, lf_map_lower]

theorem variant_lf {line : Bytes} {ls ls' : List Bytes} (h : List.Forall₂ LineVariant ls ls')
    (hls : ∀ l ∈ line :: ls, lf ∉ l) : ∀ l ∈ line :: ls', lf ∉ l := by
  induction h with
  | nil => exact hls
  | @cons l l' ls ls' hl _ ih =>
    have hls' : ∀ x ∈ line :: ls, lf ∉ x := by
      intro x hx
      rcases List.mem_cons.mp hx with rfl | hx
      · exact hls x List.mem_cons_self
      · exact hls x (List.mem_cons_of_mem _ (List.mem_cons_of_mem _ hx))
    have hl' : lf ∉ l' := by
      rw [← hl.lf_iff]
      exact hls l (List.mem_cons_of_mem _ List.mem_cons_self)
    intro x hx
    rcases List.mem_cons.mp hx with rfl | hx
    · exact hls x List.mem_cons_self
    · rcases List.mem_cons.mp hx with rfl | hx
      · exact hl'
      · exact ih hls' x (List.mem_cons_of_mem _ hx)

/-- **The scan does not tell variants apart.** -/
theorem variant_scan {h h' : Bytes} (hv : CaseVariant h h') :
    scannedLength h = scannedLength h' ∧ refExpect h = refExpect h' := by
  obtain ⟨line, ls, ls', hls, hvs, rfl, rfl⟩ := hv
  have hscan := variant_scanLines hvs
  rw [scanLines_eq, scanLines_eq, Prod.mk.injEq] at hscan
  unfold scannedLength refLength refExpect fieldLines
  rw [tail_lfLines_unlines hls, tail_lfLines_unlines (variant_lf hvs hls)]
  exact hscan

/-! ## the request object -/

theorem requestOf_withoutHeaders {a : Bytes} (ha : lf ∉ a) (x y ip body : Bytes) :
    (requestOf ip (a ++ lf :: x, body)).withoutHeaders
      = (requestOf ip (a ++ lf :: y, body)).withoutHeaders := by
  unfold requestOf
  rw [new_eq ha, new_eq ha]
  unfold RequestIncoming.setTarget
  by_cases h0 : (requestLine (dropCr a)).2 = []
  · rw [if_pos h0, if_pos h0]
    rfl
  · rw [if_neg h0, if_neg h0]
    cases Cutting.cut [ch '?'] (requestLine (dropCr a)).2 with
    | none => rfl
    | some p => rfl

theorem variant_withoutHeaders {h h' : Bytes} (hv : CaseVariant h h') (ip body : Bytes) :
    (requestOf ip (h, body)).withoutHeaders = (requestOf ip (h', body)).withoutHeaders := by
  obtain ⟨line, ls, ls', hls, -, rfl, rfl⟩ := hv
  have e : ∀ ls, unlines (line :: ls) = line ++ lf :: unlines ls := by
    intro ls
    rw [unlines, List.flatMap_cons, List.append_assoc]
    rfl
  rw [e, e]
  exact requestOf_withoutHeaders (hls line List.mem_cons_self) _ _ _ _

theorem respond_blind {srv : Server σ} (hb : srv.Blind) {r r' : RequestIncoming}
    (h : r.withoutHeaders = r'.withoutHeaders) (w : σ) : respond srv r w = respond srv r' w := by
  have hmethod : r.withoutHeaders.method = r'.withoutHeaders.method := by rw [h]
  have hpath : r.withoutHeaders.path = r'.withoutHeaders.path := by rw [h]
  change r.method = r'.method at hmethod
  change r.path = r'.path at hpath
  have hrun : ∀ f : Handler σ, BlindHandler f → ∀ response (w : σ),
      runEndpoint f r response w = runEndpoint f r' response w := by
    intro f hf response w
    unfold runEndpoint
    rw [hf r r' w h]
  unfold respond endpointKey
  rw [hmethod, hpath]
  cases he : srv.endpoints.find? ⟨r'.path, r'.method⟩ with
  | some e =>
    obtain ⟨hf, hg⟩ := hb.endpoints _ (AssocMap.find?_eq_some_iff.mp he)
    show respondEndpoint e r w = respondEndpoint e r' w
    unfold respondEndpoint
    cases hguard : e.2 with
    | none => exact hrun _ hf _ _
    | some guard =>
      simp only
      rw [hg guard hguard r r' w h]
      cases guard r' w with
      | mk result w' =>
        cases result with
        | ret response => exact hrun _ hf _ _
        | _ => rfl
  | none =>
    cases hh : srv.handlers.find? r'.method with
    | some f =>
      have hf : BlindHandler f := hb.handlers _ (AssocMap.find?_eq_some_iff.mp hh)
      simp only
      rw [hf r r' w h]
    | none => rfl

/-- `process_request` closes the connection if the last field spelled `Connection` says so -/
theorem keepsAlive_new {head : Bytes} (hlf : lf ∈ head) (ip body : Bytes) :
    keepsAlive (requestOf ip (head, body)) = false ↔
      ∃ f, ((visibleFields head).filter fun f => svStrip f.1 = str "Connection").getLast? = some f ∧
        svStrip f.2 = str "close" := by
  have hget : (requestOf ip (head, body)).getHeaders.get (str "Connection")
      = (((visibleFields head).filter fun f => svStrip f.1 = str "Connection").getLast?.map
          fun f => svStrip f.2).getD [] := by
    unfold requestOf
    rw [getHeaders_set, Params.get, getHeaders_find? hlf]
  unfold keepsAlive
  rw [hget]
  cases ((visibleFields head).filter fun f => svStrip f.1 = str "Connection").getLast? with
  | none =>
    refine iff_of_false (by decide) ?_
    rintro ⟨f, hf, -⟩
    exact absurd hf (by simp)
  | some f =>
    rw [Option.map_some, Option.getD_some]
    by_cases hclose : svStrip f.2 = str "close"
    · refine iff_of_true ?_ ⟨f, rfl, hclose⟩
      rw [hclose]
      decide
    · refine iff_of_false (by simp [hclose]) ?_
      rintro ⟨g, hg, hc⟩
      rw [Option.some.injEq] at hg
      exact hclose (hg ▸ hc)

theorem keepsAlive_of_none {head : Bytes} (hlf : lf ∈ head)
    (hno : ∀ f ∈ visibleFields head, ¬ asksToClose f) (ip body : Bytes) :
    keepsAlive (requestOf ip (head, body)) = true := by
  by_contra hk
  rw [Bool.not_eq_true, keepsAlive_new hlf] at hk
  obtain ⟨f, hlast, hclose⟩ := hk
  obtain ⟨hm, hname⟩ := List.mem_filter.mp (List.mem_of_getLast? hlast)
  have hname : svStrip f.1 = str "Connection" := by simpa using hname
  refine hno f hm ⟨?_, hclose⟩
  show (svStrip f.1).map asciiLower = _
  rw [hname]
  decide

/-- **Variants are answered alike** where the keep-alive decision is the same. -/
theorem variant_process {srv : Server σ} (hb : srv.Blind) {h h' : Bytes} (hv : CaseVariant h h')
    (c : Conn σ) (b : Bytes)
    (hk : keepsAlive (requestOf c.s.clientIP (h, b))
      = keepsAlive (requestOf c.s.clientIP (h', b))) :
    (processRequest srv h b c).s = (processRequest srv h' b c).s ∧
      (processRequest srv h b c).writes = (processRequest srv h' b c).writes ∧
      (processRequest srv h b c).world = (processRequest srv h' b c).world := by
  have hr := respond_blind hb (variant_withoutHeaders hv c.s.clientIP b) c.world
  have hk' : keepsAlive (Conn.request c.s h b) = keepsAlive (Conn.request c.s h' b) := hk
  have hr' : respond srv (Conn.request c.s h b) c.world
      = respond srv (Conn.request c.s h' b) c.world := hr
  have hwrites : ∀ a a' : Action, a.isWrite = false → a'.isWrite = false → ∀ x,
      ((c.trace ++ [a]) ++ [x]).filter Action.isWrite
        = ((c.trace ++ [a']) ++ [x]).filter Action.isWrite := by
    intro a a' ha ha' x
    simp [List.filter_append, ha, ha']
  unfold processRequest
  simp only [hk', hr']
  exact ⟨rfl, hwrites _ _ rfl rfl _, rfl⟩

/-! ## respelling -/

/-- the line with the name of its field replaced -/
def recase (g : Bytes × Bytes → Bytes) (l : Bytes) : Bytes :=
  match cut [ch ':'] l with
  | none => l
  | some f => g (f.1, dropCr f.2) ++ ch ':' :: f.2

/-- the name `n` with `m` between the blanks around it -/
def spell (m n : Bytes) : Bytes :=
  n.takeWhile isBlank ++ m ++ (n.dropWhile isBlank).rtakeWhile isBlank

section
variable {g : Bytes × Bytes → Bytes} (hg : ∀ f, (g f).map asciiLower = f.1.map asciiLower)
include hg

theorem recase_variant (l : Bytes) : LineVariant l (recase g l) := by
  unfold recase
  cases hc : cut [ch ':'] l with
  | none => exact .same l
  | some f =>
    obtain ⟨n, v⟩ := f
    obtain ⟨rfl, hn⟩ := cut_singleton_some hc
    exact .name v hn (hg (n, dropCr v)).symm

theorem colon_recase {n : Bytes} (hn : ch ':' ∉ n) (v : Bytes) : ch ':' ∉ g (n, v) := by
  rw [← colon_map_lower, hg, colon_map_lower]
  exact hn

theorem cut_recase (l : Bytes) : cut [ch ':'] (dropCr (recase g l))
    = (cut [ch ':'] (dropCr l)).map fun f => (g f, f.2) := by
  unfold recase
  cases hc : cut [ch ':'] l with
  | none =>
    have hnone : cut [ch ':'] (dropCr l) = none := by
      rw [cut_singleton_none] at hc ⊢
      intro hm
      unfold dropCr at hm
      split at hm
      · exact hc (List.dropLast_subset _ hm)
      · exact hc hm
    rw [hnone]
    rfl
  | some f =>
    obtain ⟨n, v⟩ := f
    obtain ⟨rfl, hn⟩ := cut_singleton_some hc
    show cut _ (dropCr (g (n, dropCr v) ++ ch ':' :: v)) = _
    rw [dropCr_field, dropCr_field, cut_of_mem_free (colon_recase hg hn _), cut_of_mem_free hn]
    rfl

theorem fieldsOf_recase (ls : List Bytes) :
    fieldsOf (ls.map (recase g)) = (fieldsOf ls).map fun f => (g f, f.2) := by
  induction ls with
  | nil => rfl
  | cons l ls ih =>
    rw [List.map_cons, fieldsOf_cons, fieldsOf_cons, ih, cut_recase hg]
    by_cases h0 : dropCr l = []
    · rw [if_pos h0, if_pos ((recase_variant hg l).dropCr.nil_iff.mp h0)]
      rfl
    · rw [if_neg h0, if_neg fun h => h0 ((recase_variant hg l).dropCr.nil_iff.mpr h)]
      cases cut [ch ':'] (dropCr l) with
      | none => rfl
      | some f => rfl

theorem recase_all (ls : List Bytes) : List.Forall₂ LineVariant ls (ls.map (recase g)) := by
  induction ls with
  | nil => exact .nil
  | cons l ls ih => exact .cons (recase_variant hg l) ih

end

theorem svStrip_pad {a m z : Bytes} (ha : ∀ b ∈ a, isBlank b = true)
    (hz : ∀ b ∈ z, isBlank b = true) (hne : m ≠ [])
    (hhead : ∀ b, m.head? = some b → isBlank b = false)
    (hlast : ∀ b, m.getLast? = some b → isBlank b = false) : svStrip (a ++ m ++ z) = m := by
  obtain ⟨x, xs, rfl⟩ := List.exists_cons_of_ne_nil hne
  have hdrop : (a ++ x :: xs ++ z).dropWhile isBlank = x :: xs ++ z := by
    rw [List.append_assoc, List.dropWhile_append_of_pos ha, List.cons_append,
      List.dropWhile_cons_of_neg (by simp [hhead x rfl])]
  unfold svStrip
  rw [hdrop]
  clear hdrop
  induction z using List.reverseRecOn with
  | nil =>
    rw [List.append_nil, List.rdropWhile_eq_self_iff]
    intro hne
    rw [hlast _ (List.getLast?_eq_some_getLast hne)]
    simp
  | append_singleton z b ih =>
    rw [← List.append_assoc, List.rdropWhile_concat_pos _ _ _ (hz b (by simp))]
    exact ih fun b' hb' => hz b' (List.mem_append_left _ hb')

/-- `spell m n` is a spelling of the name `n`, and `m` is what is left of it without blanks -/
theorem spell_spec {m n : Bytes} (h : (svStrip n).map asciiLower = m.map asciiLower) (hne : m ≠ [])
    (hhead : ∀ b, m.head? = some b → isBlank b = false)
    (hlast : ∀ b, m.getLast? = some b → isBlank b = false) :
    (spell m n).map asciiLower = n.map asciiLower ∧ svStrip (spell m n) = m := by
  have hn : n.takeWhile isBlank ++ svStrip n ++ (n.dropWhile isBlank).rtakeWhile isBlank = n := by
    unfold svStrip
    rw [List.append_assoc, List.rdropWhile_append_rtakeWhile, List.takeWhile_append_dropWhile]
  constructor
  · conv_rhs => rw [← hn]
    unfold spell
    rw [List.map_append, List.map_append, List.map_append, List.map_append, h]
  · exact svStrip_pad (fun b hb => List.mem_takeWhile_imp hb)
      (fun b hb => List.mem_rtakeWhile_imp hb) hne hhead hlast

theorem asciiLower_asciiLower (b : UInt8) : asciiLower (asciiLower b) = asciiLower b := by
  revert b
  apply forall_byte
  decide +kernel

/-- a name in lower case is not spelled `Connection` -/
theorem svStrip_lower_ne (n : Bytes) : svStrip (n.map asciiLower) ≠ str "Connection" := by
  intro h
  rw [svStrip_map_lower] at h
  have hC : ch 'C' ∈ (svStrip n).map asciiLower := by
    rw [h]
    decide
  obtain ⟨b, -, hb⟩ := List.mem_map.mp hC
  have hne : ∀ b, asciiLower b ≠ ch 'C' := by
    apply forall_byte
    decide +kernel
  exact hne b hb

def lowerName (f : Bytes × Bytes) : Bytes := f.1.map asciiLower

/-- `Connection` in the fields that ask to close, all other names in lower case -/
def closeName (f : Bytes × Bytes) : Bytes :=
  if asksToClose f then spell (str "Connection") f.1 else lowerName f

theorem lower_lowerName (f : Bytes × Bytes) :
    (lowerName f).map asciiLower = f.1.map asciiLower := by
  unfold lowerName
  rw [List.map_map]
  exact List.map_congr_left fun b _ => asciiLower_asciiLower b

theorem spell_connection {f : Bytes × Bytes} (h : asksToClose f) :
    (spell (str "Connection") f.1).map asciiLower = f.1.map asciiLower ∧
      svStrip (spell (str "Connection") f.1) = str "Connection" := by
  have hname : (svStrip f.1).map asciiLower = (str "Connection").map asciiLower :=
    h.1.trans (by decide)
  apply spell_spec hname (by decide)
  · intro b hb
    rw [show (str "Connection").head? = some (ch 'C') from rfl, Option.some.injEq] at hb
    rw [← hb]
    decide
  · intro b hb
    rw [show (str "Connection").getLast? = some (ch 'n') from rfl, Option.some.injEq] at hb
    rw [← hb]
    decide

theorem lower_closeName (f : Bytes × Bytes) :
    (closeName f).map asciiLower = f.1.map asciiLower := by
  unfold closeName
  split
  · next h => exact (spell_connection h).1
  · exact lower_lowerName f

/-! ## the result -/

section
variable {line : Bytes} {ls : List Bytes} (hls : ∀ l ∈ line :: ls, lf ∉ l)
include hls

theorem variant_recase {g : Bytes × Bytes → Bytes}
    (hg : ∀ f, (g f).map asciiLower = f.1.map asciiLower) :
    CaseVariant (unlines (line :: ls)) (unlines (line :: ls.map (recase g))) ∧
      visibleFields (unlines (line :: ls.map (recase g)))
        = (visibleFields (unlines (line :: ls))).map fun f => (g f, f.2) := by
  have hvs := recase_all hg ls
  refine ⟨⟨line, ls, _, hls, hvs, rfl, rfl⟩, ?_⟩
  rw [visibleFields_unlines hls, visibleFields_unlines (variant_lf hvs hls), fieldsOf_recase hg]

theorem keepsAlive_lower (ip body : Bytes) :
    keepsAlive (requestOf ip (unlines (line :: ls.map (recase lowerName)), body)) = true := by
  by_contra hk
  rw [Bool.not_eq_true, keepsAlive_new (lf_mem_unlines _ _),
    (variant_recase hls lower_lowerName).2] at hk
  obtain ⟨f, hlast, -⟩ := hk
  obtain ⟨hm, hname⟩ := List.mem_filter.mp (List.mem_of_getLast? hlast)
  obtain ⟨f₀, -, rfl⟩ := List.mem_map.mp hm
  have hname : svStrip (lowerName f₀) = str "Connection" := by simpa using hname
  exact svStrip_lower_ne f₀.1 hname

theorem keepsAlive_close {f : Bytes × Bytes} (hf : f ∈ visibleFields (unlines (line :: ls)))
    (hclose : asksToClose f) (ip body : Bytes) :
    keepsAlive (requestOf ip (unlines (line :: ls.map (recase closeName)), body)) = false := by
  rw [keepsAlive_new (lf_mem_unlines _ _), (variant_recase hls lower_closeName).2]
  have hmem : (closeName f, f.2) ∈ ((visibleFields (unlines (line :: ls))).map
      fun f => (closeName f, f.2)).filter fun f => svStrip f.1 = str "Connection" := by
    refine List.mem_filter.mpr ⟨List.mem_map_of_mem hf, decide_eq_true ?_⟩
    show svStrip (closeName f) = _
    unfold closeName
    rw [if_pos hclose]
    exact (spell_connection hclose).2
  have hvalue : ∀ x ∈ ((visibleFields (unlines (line :: ls))).map
      fun f => (closeName f, f.2)).filter fun f => svStrip f.1 = str "Connection",
      svStrip x.2 = str "close" := by
    intro x hx
    obtain ⟨hm, hname⟩ := List.mem_filter.mp hx
    obtain ⟨f₀, -, rfl⟩ := List.mem_map.mp hm
    have hname : svStrip (closeName f₀) = str "Connection" := by simpa using hname
    by_cases hc₀ : asksToClose f₀
    · exact hc₀.2
    · unfold closeName at hname
      rw [if_neg hc₀] at hname
      exact absurd hname (svStrip_lower_ne f₀.1)
  cases hlast : (((visibleFields (unlines (line :: ls))).map
      fun f => (closeName f, f.2)).filter fun f => svStrip f.1 = str "Connection").getLast? with
  | none =>
    rw [List.getLast?_eq_none_iff] at hlast
    rw [hlast] at hmem
    exact absurd hmem List.not_mem_nil
  | some x => exact ⟨x, rfl, hvalue x (List.mem_of_getLast? hlast)⟩

end

theorem blind_empty : (Server.empty : Server σ).Blind :=
  ⟨fun _ he => absurd he List.not_mem_nil, fun _ he => absurd he List.not_mem_nil⟩

/-- **A header block is treated like all its variants** if and only if none of its fields asks to
close, in any spelling of `Connection`. -/
theorem ignores_case_iff (h : Bytes) (hh : blockHead crlf2 h = some (h, [])) :
    (∀ h', CaseVariant h h' → SameTreatment h h') ↔ ∀ f ∈ visibleFields h, ¬ asksToClose f := by
  obtain ⟨line, ls, hls, rfl⟩ := unlines_of_blockHead hh
  constructor
  · intro hsame f hf hclose
    have hdecide : ∀ g, (∀ f, (g f).map asciiLower = f.1.map asciiLower) →
        keepsAlive (requestOf [] (unlines (line :: ls), []))
          = keepsAlive (requestOf [] (unlines (line :: ls.map (recase g)), [])) := by
      intro g hg
      have hs := (hsame _ (variant_recase hls hg).1).process Unit Server.empty blind_empty
        (accept [] ()) []
      exact congrArg SslSession.keepAlive hs.1
    have h1 := hdecide lowerName lower_lowerName
    have h2 := hdecide closeName lower_closeName
    rw [keepsAlive_lower hls] at h1
    rw [keepsAlive_close hls hf hclose, h1] at h2
    exact absurd h2 (by simp)
  · intro hno h' hv
    obtain ⟨line', ls', ls₂, hls', hvs, he, rfl⟩ := id hv
    have hfields : List.Forall₂ FieldVariant (visibleFields (unlines (line :: ls)))
        (visibleFields (unlines (line' :: ls₂))) := by
      rw [he, visibleFields_unlines hls', visibleFields_unlines (variant_lf hvs hls')]
      exact variant_fieldsOf hvs
    have hno' := variant_asksToClose hfields hno
    refine ⟨?_, ?_⟩
    · intro σ srv ip w evs evs' c c' b b' hrun hrun' hb hb'
      have hl := ((run_settled srv hrun).mem_dispatched hb).2
      have hl' := ((run_settled srv hrun').mem_dispatched hb').2
      exact hl.trans ((variant_scan hv).1.trans hl'.symm)
    · intro σ srv hblind c b
      apply variant_process hblind hv
      rw [keepsAlive_of_none (lf_mem_unlines _ _) hno, keepsAlive_of_none (lf_mem_unlines _ _) hno']

/-- requests that are the same up to the case of field names, none of which asks to close -/
def SameRequest (r r' : Bytes × Bytes) : Prop :=
  CaseVariant r.1 r'.1 ∧ r.2 = r'.2 ∧ ∀ f ∈ visibleFields r.1, ¬ asksToClose f

theorem SameRequest.replyTo_eq {srv : Server σ} (hb : srv.Blind) {r r' : Bytes × Bytes}
    (h : SameRequest r r') (ip : Bytes) (w : σ) :
    replyTo srv ip r w = replyTo srv ip r' w ∧ interimFor r.1 = interimFor r'.1 := by
  obtain ⟨h₁, b⟩ := r
  obtain ⟨h₁', b'⟩ := r'
  obtain ⟨hv, rfl, hno⟩ := h
  have hresp := respond_blind hb (variant_withoutHeaders hv ip b) w
  have hk : keepsAlive (requestOf ip (h₁, b)) = keepsAlive (requestOf ip (h₁', b)) := by
    obtain ⟨line, ls, ls', hls, hvs, rfl, rfl⟩ := id hv
    have hfields := variant_fieldsOf hvs
    rw [← visibleFields_unlines hls, ← visibleFields_unlines (variant_lf hvs hls)] at hfields
    rw [keepsAlive_of_none (lf_mem_unlines _ _) hno,
      keepsAlive_of_none (lf_mem_unlines _ _) (variant_asksToClose hfields hno)]
  unfold replyTo interimFor
  simp only [hresp, hk, (variant_scan hv).2, and_self]

theorem exchanges_ignore_case {srv : Server σ} (hb : srv.Blind) (ip : Bytes)
    {rs rs' : List (Bytes × Bytes)} (h : List.Forall₂ SameRequest rs rs') (w : σ) :
    exchanges srv ip rs w = exchanges srv ip rs' w := by
  induction h generalizing w with
  | nil => rfl
  | cons hr _ ih =>
    obtain ⟨hreply, hinterim⟩ := hr.replyTo_eq hb ip w
    unfold exchanges
    simp only [hreply, hinterim, ih]

/-- **What two sessions write** for such requests is the same, however the bytes arrive. -/
theorem writes_ignore_case {srv : Server σ} (hb : srv.Blind) {ip : Bytes} {w : σ}
    {evs evs' : List Event} {c c' : Conn σ} (hrun : run srv ip w evs = some c)
    (hrun' : run srv ip w evs' = some c') (hcur : c.currentHead = none)
    (hcur' : c'.currentHead = none)
    (h : List.Forall₂ SameRequest c.dispatched c'.dispatched) : c.writes = c'.writes := by
  rw [(run_settled srv hrun).talk.writes, (run_settled srv hrun').talk.writes, hcur, hcur',
    exchanges_ignore_case hb ip h]

/-- a header block with a field that asks to keep the connection -/
def keepHead : Bytes := str "GET /a HTTP/1.1\r\nHost: h\r\nCONNECTION: keep-alive\r\n\r\n"

theorem ignores_case_iff_keep :
    (∀ h', CaseVariant keepHead h' → SameTreatment keepHead h') ↔
      ∀ f ∈ visibleFields keepHead, ¬ asksToClose f :=
  ignores_case_iff keepHead (by decide +kernel)

def closeHead : Bytes := str "GET / HTTP/1.1\r\nConnection: close\r\n\r\n"

/-- `closeHead` as a client writes it that has its field names in lower case -/
def lowerCloseHead : Bytes := str "GET / HTTP/1.1\r\nconnection: close\r\n\r\n"

/-- the header texts of the two replies -/
def closedReply : Bytes :=
  str "HTTP/1.1 404 OK\r\nContent-Length: 13\r\nConnection: close\r\n\r\n"

def keptReply : Bytes :=
  str "HTTP/1.1 404 OK\r\nContent-Length: 13\r\n"
    ++ str "Connection: keep-alive\r\nKeep-Alive: timeout=10\r\n\r\n"

theorem variant_closeHead : CaseVariant closeHead lowerCloseHead := by
  refine ⟨str "GET / HTTP/1.1\r", [str "Connection: close\r", str "\r"],
    [str "connection: close\r", str "\r"], by decide +kernel, ?_, by decide +kernel,
    by decide +kernel⟩
  apply List.Forall₂.cons
  · have hn : (str "Connection").map asciiLower = (str "connection").map asciiLower := by decide
    exact .name (str " close\r") (by decide) hn
  · exact .cons (.same _) .nil

set_option maxRecDepth 100000 in
/-- the connection is kept for the request in lower case, and its sender is told so -/
theorem lower_close_kept :
    CaseVariant closeHead lowerCloseHead ∧ ¬ SameTreatment closeHead lowerCloseHead ∧
      ∃ c c', run Server.empty [] () [.readOk closeHead] = some c ∧
        run Server.empty [] () [.readOk lowerCloseHead] = some c' ∧
        c.dispatched = [(closeHead, [])] ∧ c'.dispatched = [(lowerCloseHead, [])] ∧
        c.s.httpHeader = closedReply ∧
        c'.s.httpHeader = keptReply := by
  refine ⟨variant_closeHead, fun h => ?_, ?_⟩
  · have hs := (h.process Unit Server.empty blind_empty (accept [] ()) []).1
    have hk : keepsAlive (requestOf [] (closeHead, []))
        = keepsAlive (requestOf [] (lowerCloseHead, [])) := congrArg SslSession.keepAlive hs
    exact absurd hk (by decide +kernel)
  · have h1 : (run Server.empty [] () [.readOk closeHead]).any (fun c =>
        c.dispatched = [(closeHead, [])] ∧ c.s.httpHeader = closedReply) = true := by
      decide +kernel
    have h2 : (run Server.empty [] () [.readOk lowerCloseHead]).any (fun c =>
        c.dispatched = [(lowerCloseHead, [])] ∧ c.s.httpHeader = keptReply) = true := by
      decide +kernel
    obtain ⟨c, hrun, hc⟩ := (Option.any_eq_true _ _).mp h1
    obtain ⟨c', hrun', hc'⟩ := (Option.any_eq_true _ _).mp h2
    obtain ⟨hd, hh⟩ := of_decide_eq_true hc
    obtain ⟨hd', hh'⟩ := of_decide_eq_true hc'
    exact ⟨c, c', hrun, hrun', hd, hd', hh, hh'⟩

end ServerHttpLib
