import RoomRelay.Main
import RoomRelay.Server
import RoomRelay.Proofs.Decimal.Range
import RoomRelay.Proofs.Room.Slots
import RoomRelay.Proofs.Hub.Lobby
import RoomRelay.Proofs.Hub.Relay
import RoomRelay.Proofs.Hub.Receivers
import RoomRelay.Proofs.Hub.Rooms
import RoomRelay.Proofs.Hub.Superseded
import RoomRelay.Proofs.Hub.Simulation
import RoomRelay.Proofs.Hub.Teardown
import RoomRelay.Proofs.Hub.Convergence
import RoomRelay.Proofs.Message.Transit
import RoomRelay.Proofs.Message.Directions
import RoomRelay.Proofs.Hub.Forgery
import RoomRelay.Proofs.Hub.Authorization
import RoomRelay.Proofs.Hub.Mailbox
import RoomRelay.Proofs.Hub.Stream
import RoomRelay.Proofs.Hub.Delay
import RoomRelay.Proofs.Http.Admission
import RoomRelay.Proofs.Settings.Precedence
import RoomRelay.Proofs.Socket.Delivery
import RoomRelay.Proofs.Json.Alike
import RoomRelay.Proofs.Message.Disclosure
