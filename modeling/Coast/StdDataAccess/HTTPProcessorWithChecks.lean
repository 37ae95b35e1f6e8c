import Coast.Io.URLChecks

/-!
# The request target that a server takes

`DoPrepareContextRequest` checks the path of a request target, decodes it and
stores it back with the arguments behind it.
-/

namespace Coast

open URLUtils

structure ErrorMessage where
  component : Bytes
  code : Nat
  errorMessage : Bytes
  faultyContent : Bytes
  deriving DecidableEq, Repr

/-- A request URI, cut at its first separator of arguments. -/
structure RequestURISplitHelper where
  fPath : Bytes
  fArgSep : Bytes
  fArgs : Bytes
  deriving DecidableEq, Repr

namespace RequestURISplitHelper

/-- The path in front of the first `?` or `;`.  A delimiter at the end is
dropped. -/
def split (requestURI : Bytes) : RequestURISplitHelper :=
  match firstCharOf requestURI (lit "?;") with
  | none => ⟨requestURI, [], []⟩
  | some argDelimPos =>
    if argDelimPos ≠ requestURI.length - 1 then
      ⟨requestURI.take argDelimPos, (requestURI.drop argDelimPos).take 1,
        requestURI.drop (argDelimPos + 1)⟩
    else ⟨requestURI.take argDelimPos, [], []⟩

def merge (this : RequestURISplitHelper) : Bytes := this.fPath ++ this.fArgSep ++ this.fArgs

end RequestURISplitHelper

namespace HTTPProcessorWithChecks

structure Config where
  urlExhaustiveDecode : Bool := false
  fixDirectoryTraversial : Bool := false
  urlEncodeExclude : Bytes := lit "/?"
  checkUrlEncodingOverride : Bytes := []
  checkUrlArgEncodingOverride : Bytes := []
  unsafeCharsOverride : Bytes := []
  unsafeCharsAsciiOverride : Bytes := []
  doNotCheckExtendedAscii : Bool := false

/-- What becomes of a request URI, and the errors that are reported. -/
structure Prepared where
  accepted : Bool
  requestURI : Bytes
  errors : List ErrorMessage
  deriving DecidableEq, Repr

def decodeAllUrlCharacters (config : Config) (urlPath : Bytes) : Bytes × URLCheckStatus :=
  if config.urlExhaustiveDecode then exhaustiveUrlDecode urlPath false
  else urlDecodeChecked urlPath false

def urlPathContainsUnsafeChars (config : Config) (urlPath : Bytes) : Bool :=
  checkUrlPathContainsUnsafeChars urlPath config.unsafeCharsOverride
    config.unsafeCharsAsciiOverride !config.doNotCheckExtendedAscii

/-- A path that is shorter when it is resolved goes up; it is repaired or refused. -/
def hasUriPathResolved (config : Config) (urlPath : Bytes) : Bool × Bytes × List ErrorMessage :=
  let component := lit "HTTPProcessorWithChecks::DoPrepareContextRequest"
  let normalizedUrl := cleanUpUriPath urlPath
  if urlPath.length ≠ normalizedUrl.length then
    if config.fixDirectoryTraversial then
      (true, urlEncode normalizedUrl config.urlEncodeExclude,
        [⟨component, 200, lit ("Directory traversal attack detected and " ++
          "normalized. Request not rejected because of " ++
          "FixDirectoryTraversial setting"), urlPath⟩])
    else
      (false, urlPath, [⟨component, 400, lit "Directory traversal attack", urlPath⟩])
  else (true, urlPath, [])

def argsWarning (config : Config) (splitHelper : RequestURISplitHelper) : List ErrorMessage :=
  if checkUrlArgEncoding splitHelper.fArgs config.checkUrlArgEncodingOverride then []
  else
    [⟨lit "HTTPProcessorWithChecks::DoVerifyRequestv", 200,
      lit "Argument string (after " ++ splitHelper.fArgSep ++
        lit ") was not correctly encoded. Request not rejected.",
      splitHelper.fArgs⟩]

/-- The checks of a request URI, in their order. -/
def doPrepareContextRequest (config : Config) (requestURI : Bytes) : Prepared :=
  let splitHelper := RequestURISplitHelper.split requestURI
  if !checkUrlEncoding splitHelper.fPath config.checkUrlEncodingOverride then
    ⟨false, requestURI, [⟨lit "HTTPProcessorWithChecks::DoVerifyRequest", 400,
        lit "Not all unsafe chars URL encoded", splitHelper.fPath⟩]⟩
  else
    let errors := argsWarning config splitHelper
    let (normalizedUrl, eUrlCheckStatus) := decodeAllUrlCharacters config splitHelper.fPath
    if eUrlCheckStatus = .eSuspiciousChar then
      ⟨false, requestURI, errors ++ [⟨lit "HTTPProcessorWithChecks::DoPrepareContextRequest", 400,
          lit "Encoded char above 0x255 detected", splitHelper.fPath⟩]⟩
    else if urlPathContainsUnsafeChars config normalizedUrl then
      ⟨false, requestURI, errors ++ [⟨lit "HTTPProcessorWithChecks::DoVerifyRequest", 400,
          lit "Decoded URL path contains unsafe char", normalizedUrl⟩]⟩
    else
      let (resolved, urlPath, found) := hasUriPathResolved config normalizedUrl
      if resolved then
        ⟨true, { splitHelper with fPath := urlPath }.merge, errors ++ found⟩
      else ⟨false, requestURI, errors ++ found⟩

theorem hasUriPathResolved_length {config : Config} {urlPath : Bytes}
    (notFixed : config.fixDirectoryTraversial = false)
    (goesOn : (hasUriPathResolved config urlPath).1 = true) :
    (cleanUpUriPath urlPath).length = urlPath.length ∧
      (hasUriPathResolved config urlPath).2.1 = urlPath := by
  unfold hasUriPathResolved at goesOn ⊢
  dsimp only at goesOn ⊢
  split at goesOn
  · rw [if_neg (by rw [notFixed]; exact Bool.false_ne_true)] at goesOn
    cases goesOn
  · rename_i same
    rw [if_neg same]
    exact ⟨(of_not_not same).symm, rfl⟩

def decodedPath (urlExhaustiveDecode : Bool) (requestURI : Bytes) : Bytes :=
  (decodeAllUrlCharacters { urlExhaustiveDecode := urlExhaustiveDecode }
    (RequestURISplitHelper.split requestURI).fPath).1

theorem nulFree_of_safe {config : Config} {urlPath : Bytes}
    (safe : urlPathContainsUnsafeChars config urlPath = false) :
    NulFree urlPath := by
  unfold urlPathContainsUnsafeChars checkUrlPathContainsUnsafeChars at safe
  dsimp only at safe
  rw [Bool.or_eq_false_iff] at safe
  apply nulFree_of_firstCharOf
  exact Option.not_isSome_iff_eq_none.mp (Bool.not_eq_true _ ▸ safe.1)

/-- A request that is accepted has passed every check. -/
theorem doPrepareContextRequest_accepted {urlExhaustiveDecode : Bool} {requestURI : Bytes}
    (accepted : (doPrepareContextRequest
      { urlExhaustiveDecode := urlExhaustiveDecode }
      requestURI).accepted = true) :
    NulFree (decodedPath urlExhaustiveDecode requestURI) ∧
      (cleanUpUriPath (decodedPath urlExhaustiveDecode requestURI)).length =
        (decodedPath urlExhaustiveDecode requestURI).length ∧
      (doPrepareContextRequest
        { urlExhaustiveDecode := urlExhaustiveDecode }
        requestURI).requestURI = decodedPath urlExhaustiveDecode requestURI ++
            (RequestURISplitHelper.split requestURI).fArgSep ++
            (RequestURISplitHelper.split requestURI).fArgs := by
  unfold doPrepareContextRequest at accepted ⊢
  dsimp only at accepted ⊢
  split at accepted
  · cases accepted
  · rename_i encoded
    rw [if_neg encoded]
    split at accepted
    · cases accepted
    · rename_i plain
      rw [if_neg plain]
      split at accepted
      · cases accepted
      · rename_i safe
        rw [if_neg safe]
        refine ⟨nulFree_of_safe (Bool.not_eq_true _ ▸ safe), ?_⟩
        split at accepted
        · rename_i resolved
          rw [if_pos resolved]
          rcases hasUriPathResolved_length rfl resolved with ⟨same, kept⟩
          refine ⟨same, ?_⟩
          unfold RequestURISplitHelper.merge
          rw [kept]
          rfl
        · cases accepted

end HTTPProcessorWithChecks

end Coast
