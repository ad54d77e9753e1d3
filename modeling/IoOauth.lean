import IoOauth.Utf8
import IoOauth.FormUrlencoded
import IoOauth.Base64
import IoOauth.Rand
import IoOauth.Pkce
import IoOauth.Scope
import IoOauth.AuthorizationRequest
import IoOauth.AccessTokenRequest
import IoOauth.IssueAccessToken
import IoOauth.RefreshAccessToken
import IoOauth.PkceBinding
import IoOauth.Json
import IoOauth.JsonRoundtrip
import IoOauth.JsonAccepted
import IoOauth.JsonStruct
import IoOauth.IssueAccessTokenJson
import IoOauth.VisitMap
import IoOauth.TokenEndpoint
