import Intaktok.Lib.Interleave
import Intaktok.Lib.Serial
import Intaktok.Lib.Hosting
import Intaktok.Lib.Ledger
import Intaktok.Lib.Table
import Intaktok.Lib.Double
import Intaktok.Lib.Like
import Intaktok.Lib.Paging
import Intaktok.Lib.IsoDate
import Intaktok.Lib.KeyValue
import Intaktok.Lib.Leadership
import Intaktok.Schema
import Intaktok.World
import Intaktok.DelByPattern
import Intaktok.Auth.Service
import Intaktok.Auth.SingleUse
import Intaktok.Auth.Accounts
import Intaktok.Admin.Service
import Intaktok.Admin.BlockSticks
import Intaktok.Admin.Closed
import Intaktok.Admin.Sessions
import Intaktok.Admin.RefreshRefines
import Intaktok.Admin.Whitelist
import Intaktok.Admin.Approval
import Intaktok.Messages.Preview
import Intaktok.Messages.Service
import Intaktok.Messages.Log
import Intaktok.Messages.Numbers
import Intaktok.Messages.Order
import Intaktok.Messages.LastMessage
import Intaktok.Messages.Drift
import Intaktok.Messages.Recovery
import Intaktok.Messages.Idempotency
import Intaktok.Messages.Doubles
import Intaktok.Messages.Verdict
import Intaktok.Messages.Effects
import Intaktok.Messages.OwnMessage
import Intaktok.Messages.Retry
import Intaktok.Messages.Unsent
import Intaktok.Presence.Service
import Intaktok.Presence.Accuracy
import Intaktok.Presence.Transitions
import Intaktok.Push.Service
import Intaktok.Push.Recipients
import Intaktok.Push.Devices
import Intaktok.Media.Service
import Intaktok.Media.SizeLimit
import Intaktok.Profile.Service
import Intaktok.Rooms.View
import Intaktok.Rooms.Service
import Intaktok.Rooms.Roster
import Intaktok.Rooms.Actions
import Intaktok.Rooms.Ownership
import Intaktok.Rooms.Requests
import Intaktok.Rooms.Succession
import Intaktok.Rooms.UpdateRoom
import Intaktok.Rooms.Creations
import Intaktok.Rooms.Enrolment
import Intaktok.Rooms.DirectRooms
import Intaktok.Rooms.Chat
import Intaktok.Rooms.Unread
import Intaktok.Messages.History
import Intaktok.Rooms.Refusals
import Intaktok.Rooms.Doubles
import Intaktok.Rooms.Notices
import Intaktok.Rooms.Views
import Intaktok.Rooms.ListRooms
import Intaktok.Rooms.Positions
import Intaktok.Admin.Lists
import Intaktok.Users.Search
import Intaktok.Messages.UnreadBy
import Intaktok.Realtime.Gateway
import Intaktok.Realtime.Sockets
import Intaktok.Realtime.Events
import Intaktok.Realtime.Server
import Intaktok.Realtime.ReadOwnRow
import Intaktok.Realtime.NonMember
import Intaktok.Realtime.BlockedSockets
import Intaktok.Realtime.Platform
import Intaktok.Realtime.Frames
import Intaktok.Realtime.SuspendedUser
import Intaktok.Realtime.RestRoutes
import Intaktok.Realtime.TwoFronts
import Intaktok.Realtime.Announcements
import Intaktok.Realtime.PersonalRooms
import Intaktok.Realtime.RoomDelivery
import Intaktok.Realtime.MediaReferences
import Intaktok.Realtime.MediaProvenance
import Intaktok.Realtime.SystemMessages
import Intaktok.Rooms.Joins
import Intaktok.Rooms.GroupChanges
import Intaktok.Rooms.SystemLog
import Intaktok.Realtime.GhostSockets
import Intaktok.Realtime.UnreadViews
import Intaktok.Realtime.MessageLog
import Intaktok.Realtime.Grounds
import Intaktok.Realtime.Receipts
import Intaktok.Realtime.Authority
import Intaktok.Realtime.RoomBook
import Intaktok.Realtime.Audience
import Intaktok.Realtime.Doors
import Intaktok.Http.Accounts
import Intaktok.Http.Profiles
import Intaktok.Http.Senders
import Intaktok.Http.Reads
import Intaktok.Http.Typing
import Intaktok.Http.Tokens
import Intaktok.Http.Budget
